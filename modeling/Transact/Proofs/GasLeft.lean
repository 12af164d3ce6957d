import Transact.Proofs.Conduct

/-!
Gas is handed down and only the rest comes back, if code never reports more than it
was handed.
-/

namespace Transact

/-- Handed `gas`, it reports no more at its halt, as long as no message returns more
than was handed on to it. -/
def Program.Frugal (gas : Quantity) : Program → Prop
  | .halt h => h.gasLeft ≤ gas
  | .step _ next | .act _ next | .note _ next => next.Frugal gas
  | .read _ next => ∀ a, (next a).Frugal gas
  | .call c next => ∀ o, o.gasLeft ≤ c.gas → (next o).Frugal gas
  | .create _ handed _ next => ∀ o, o.gasLeft ≤ handed → (next o).Frugal gas
  | .direct _ next => ∀ a, (next a).Frugal gas

def Interpreter.Frugal (i : Interpreter) : Prop := ∀ v, (i v).Frugal v.gas

namespace Machine

variable {β : Type} [Store β] {m : Machine} {observer : Observer}

/-- In no run does the code report more gas left than it was handed. -/
def Frugal (m : Machine) (β : Type) [Store β] : Prop :=
  ∀ (observer : Observer) (depth : Nat) (p : Pending) (w : World β),
    depth ≤ m.rules.callDepthLimit → (m.play observer depth p w).1.gasLeft ≤ p.gas

theorem gas_refuse (d : Nat) (t : Terms) (k : Message) (w : World β) :
    (refuse d t k w).1.gas ≤ k.gas := Nat.zero_le _

theorem Received.gas_of_done {d : Nat} {t : Terms} {k : Message} {w w' : World β} {o : Outcome}
    (h : m.Received d t k w (.done o) w') : o.gas = k.gas := by
  cases h <;> rfl

theorem Received.gas_ended_le {d : Nat} {t : Terms} {k : Message} {w w₁ : World β} {p : Pending}
    (hr : m.Received d t k w (.pending p) w₁) {h h' : Halt} {dep : Deposit} {w₂ w₃ : World β}
    (hdep : m.Deposited p h w₂ h' dep w₃) (hg : h.gasLeft ≤ p.gas) (s : Substate) :
    (h'.ended p dep s).gas ≤ k.gas := by
  rw [← hr.gas_of_pending]
  exact Nat.le_trans Halt.gas_ended_le (Nat.le_trans hdep.gas_le hg)

/-- A message returns no more gas than was handed to it. -/
theorem conduct_frugal (observer : Observer) (hf : m.Frugal β) :
    m.Conduct observer (fun _ _ _ _ _ _ => True)
      (fun _ _ k (_ : World β) o _ => o.gas ≤ k.gas) where
  halt := trivial
  step _ := trivial
  read _ := trivial
  act _ := trivial
  note _ := trivial
  call _ _ := trivial
  create _ _ := trivial
  refuse _ := gas_refuse _ _ _ _
  done _ hr := Nat.le_of_eq (congrArg Quantity.toNat hr.gas_of_done)
  close := by
    intro d t k w p w₁ h s w₂ h' dep w₃ hd hr hp _ _ hdep
    have hg := hf observer d p w₁ hd
    rw [hp] at hg
    exact hr.gas_ended_le hdep hg s

/-- Whatever the requests, a frugal program stays frugal. -/
theorem conduct_of_frugal (m : Machine) (observer : Observer) (β : Type) [Store β]
    (hi : m.interpreter.Frugal) :
    m.Conduct observer
      (fun _ _ p _ (_ : World β) r => ∀ gas, p.Frugal gas → r.1.gasLeft ≤ gas)
      (fun _ _ k _ o _ => o.gas ≤ k.gas) where
  halt := fun _ hp => hp
  step hn := hn
  read hn := fun gas hp => hn gas (hp _)
  act hn := hn
  note hn := hn
  call hm hn := fun gas hp => hn gas (hp _ hm)
  create hm hn := fun gas hp => hn gas (hp _ hm)
  refuse _ := gas_refuse _ _ _ _
  done _ hr := Nat.le_of_eq (congrArg Quantity.toNat hr.gas_of_done)
  close := by
    intro d t k w p w₁ h s w₂ h' dep w₃ _ hr _ hg _ hdep
    exact hr.gas_ended_le hdep (hg p.gas (hi (m.invocation d p))) s

theorem frugal_of_interpreter (hc : m.interpreter.Confined) (hi : m.interpreter.Frugal) :
    m.Frugal β := by
  intro observer d p w hd
  have hconduct := m.conduct_of_frugal observer β hi
  obtain ⟨-, hf⟩ := hconduct.frame (fun k w => hconduct.send hc (d + 1) p.context.terms k w)
    (m.interpreter (m.invocation d p)) (hc _) ∅ (w.write (.enter (m.invocation d p)))
  exact hf p.gas (hi (m.invocation d p))

end Machine

end Transact
