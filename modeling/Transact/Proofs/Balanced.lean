import Transact.Ledger.Operation
import Transact.Proofs.Layers

/-!
Sequences of ledger operations that close every checkpoint they open. Main
statement: `Balanced.keeps`, that the layers under the innermost one are at every
moment what they were before.
-/

namespace Transact.Ledger

/-- Neither opens nor closes a checkpoint. -/
def Operation.Flat : Operation → Prop
  | .push | .pop _ => False
  | _ => True

/-- Each checkpoint opened is closed, and no other. -/
inductive Balanced : List Operation → Prop
  | nil : Balanced []
  | flat {op : Operation} {ops : List Operation} (hop : op.Flat) (h : Balanced ops) :
      Balanced (op :: ops)
  | nested {inner ops : List Operation} (v : Verdict) (hi : Balanced inner) (h : Balanced ops) :
      Balanced (.push :: (inner ++ .pop v :: ops))

namespace Balanced

variable {ops ops' : List Operation}

theorem append (h : Balanced ops) (h' : Balanced ops') : Balanced (ops ++ ops') := by
  induction h with
  | nil => exact h'
  | flat hop _ ih => exact .flat hop ih
  | nested v hi _ _ ih =>
    rw [List.cons_append, List.append_assoc]
    exact .nested v hi ih

theorem of_flat (h : ∀ op ∈ ops, op.Flat) : Balanced ops := by
  induction ops with
  | nil => exact .nil
  | cons op ops ih =>
    exact .flat (h op List.mem_cons_self) (ih fun op hop => h op (List.mem_cons_of_mem _ hop))

theorem singleton {op : Operation} (h : op.Flat) : Balanced [op] := .flat h .nil

/-- What is done between the opening of a checkpoint and its closing. -/
theorem bracket (h : Balanced ops) (v : Verdict) : Balanced (.push :: (ops ++ [.pop v])) :=
  .nested v h .nil

end Balanced

section Replay

variable {β : Type} [Store β] (l : Ledger β) (op : Operation) (ops ops' : List Operation)

/-- The ledger once `ops` are performed. -/
def replay : Ledger β := (l.performAll ops).2

/-- What `ops` answer. -/
def answers : List Answer := (l.performAll ops).1

@[simp] theorem replay_nil : l.replay [] = l := rfl

@[simp] theorem replay_cons : l.replay (op :: ops) = (l.perform op).2.replay ops := rfl

@[simp] theorem replay_append : l.replay (ops ++ ops') = (l.replay ops).replay ops' := by
  induction ops generalizing l with
  | nil => rfl
  | cons op ops ih => exact ih (l.perform op).2

@[simp] theorem answers_nil : l.answers [] = [] := rfl

@[simp] theorem answers_cons :
    l.answers (op :: ops) = (l.perform op).1 :: (l.perform op).2.answers ops := rfl

@[simp] theorem answers_append :
    l.answers (ops ++ ops') = l.answers ops ++ (l.replay ops).answers ops' := by
  induction ops generalizing l with
  | nil => rfl
  | cons op ops ih => exact congrArg ((l.perform op).1 :: ·) (ih (l.perform op).2)

end Replay

theorem sameBelow_attempt {β : Type} {l : Ledger β} {r : Except Exception (Ledger β)}
    (h : ∀ l', r = .ok l' → l.SameBelow l') : l.SameBelow (l.attempt r).2 := by
  cases r with
  | error e => exact .refl l
  | ok l' => exact h l' rfl

variable {β : Type} [Store β] {l : Ledger β} {op : Operation} {ops : List Operation}

/-- A write changes the innermost layer at most. -/
theorem sameBelow_perform (h : op.Flat) : l.SameBelow (l.perform op).2 := by
  cases op with
  | push => exact h.elim
  | pop v => exact h.elim
  | debit a v => exact sameBelow_attempt fun _ => sameBelow_of_debit
  | transfer a b v => exact sameBelow_attempt fun _ => sameBelow_of_transfer
  | _ => exact ⟨rfl, rfl⟩

theorem perform_ne_uneven (h : op.Flat) : (l.perform op).1 ≠ .uneven := by
  have hattempt : ∀ r, (l.attempt r).1 ≠ .uneven := by
    intro r
    cases r with
    | error e => exact Answer.noConfusion
    | ok l' => exact Answer.noConfusion
  cases op with
  | push => exact h.elim
  | pop v => exact h.elim
  | debit a v => exact hattempt _
  | transfer a b v => exact hattempt _
  | _ => exact Answer.noConfusion

/-- No operation changes what is under the layers. -/
theorem base_perform (l : Ledger β) (op : Operation) : (l.perform op).2.base = l.base := by
  cases op with
  | push => rfl
  | pop v =>
    obtain ⟨base, top, below⟩ := l
    cases below with
    | nil => rfl
    | cons parent rest => cases v <;> rfl
  | _ =>
    refine (sameBelow_perform ?_).base
    trivial

theorem base_replay (l : Ledger β) (ops : List Operation) : (l.replay ops).base = l.base := by
  induction ops generalizing l with
  | nil => rfl
  | cons op ops ih => exact (ih (l.perform op).2).trans (base_perform l op)

namespace Balanced

/-- Balanced operations leave off at the layer they began on. -/
theorem sameBelow (h : Balanced ops) (l : Ledger β) : l.SameBelow (l.replay ops) := by
  induction h generalizing l with
  | nil => exact .refl l
  | @flat op ops hop _ ih => exact (sameBelow_perform hop).trans (ih (l.perform op).2)
  | @nested inner ops v _ _ ihi ih =>
    have hclosed : l.SameBelow ((l.push.replay inner).pop v) := by
      rw [(ihi l.push).pop_of_push]
      exact ⟨rfl, rfl⟩
    have hrest := hclosed.trans (ih ((l.push.replay inner).pop v))
    rw [replay_cons, replay_append]
    exact hrest

/-- At every moment the layers under the first innermost one are still there,
outermost and unchanged. -/
theorem keeps (h : Balanced ops) (l : Ledger β) (n : Nat) :
    l.below <:+ (l.replay (ops.take n)).below := by
  induction h generalizing l n with
  | nil =>
    rw [List.take_nil]
    exact List.suffix_refl _
  | @flat op ops hop _ ih =>
    cases n with
    | zero => exact List.suffix_refl _
    | succ n =>
      have hl := ih (l.perform op).2 n
      rw [(sameBelow_perform hop).below] at hl
      exact hl
  | @nested inner ops v hi _ ihi ih =>
    cases n with
    | zero => exact List.suffix_refl _
    | succ n =>
      rw [List.take_succ_cons, replay_cons, List.take_append, replay_append]
      by_cases hn : n ≤ inner.length
      · -- still inside the bracket, above the layer that was innermost
        rw [Nat.sub_eq_zero_of_le hn]
        exact (List.suffix_cons l.top l.below).trans (ihi l.push n)
      · obtain ⟨k, hk⟩ : ∃ k, n - inner.length = k + 1 := ⟨n - inner.length - 1, by omega⟩
        have hclosed : l.SameBelow ((l.push.replay inner).pop v) := by
          rw [(hi.sameBelow l.push).pop_of_push]
          exact ⟨rfl, rfl⟩
        have hl := ih ((l.push.replay inner).pop v) k
        rw [hclosed.below] at hl
        rw [hk, List.take_of_length_le (by omega)]
        exact hl

/-- Each checkpoint that balanced operations close is there. -/
theorem no_uneven (h : Balanced ops) (l : Ledger β) : Answer.uneven ∉ l.answers ops := by
  induction h generalizing l with
  | nil => exact List.not_mem_nil
  | @flat op ops hop _ ih =>
    rw [answers_cons, List.mem_cons, not_or]
    exact ⟨(perform_ne_uneven hop).symm, ih _⟩
  | @nested inner ops v hi _ ihi ih =>
    have hopen : (l.push.replay inner).openCount ≠ 0 := by
      rw [(hi.sameBelow l.push).openCount_of_push]
      exact Nat.succ_ne_zero _
    have hdone : ((l.push.replay inner).perform (.pop v)).1 = .done := if_neg hopen
    have hpush : (l.perform .push).2 = l.push := rfl
    rw [answers_cons, hpush, answers_append, answers_cons, hdone]
    simp only [List.mem_cons, List.mem_append, not_or]
    exact ⟨Answer.noConfusion, ihi l.push, Answer.noConfusion, ih _⟩

end Balanced

end Transact.Ledger
