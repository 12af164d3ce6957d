import Mathlib.Logic.Function.Iterate
import Transact.Proofs.Conduct

/-!
Running code one request at a time. An invocation of the interpreter that sends a
message waits on a stack until the message is over, so that no step takes another
inside it. Main statements: `leads_run`, that the steps lead to what `Machine.run`
answers, and `Leads.invariant`.
-/

namespace Transact

/-- An invocation of the interpreter, from its entry to its halt. -/
structure Activation where
  depth : Nat
  pending : Pending
  /-- Its side effects so far. -/
  substate : Substate

def Ending.ofCall : Ending → CallReport
  | .closed o => o.ofCall
  | .uneven _ => .aborted

def Ending.ofCreation : Ending → CreationReport
  | .closed o => o.ofCreation
  | .uneven _ => .aborted

/-- An invocation that waits for a message it sent. -/
structure Caller extends Activation where
  /-- Whether the message is a creation. -/
  creates : Bool
  /-- What it does once the message is over. -/
  resume : Ending → Program

/-- Said of a message that could not be closed. -/
def Caller.aborted (c : Caller) : Remark :=
  if c.creates then .creationAborted (c.depth + 1) else .callAborted (c.depth + 1)

/-- What goes on at one moment. Of the callers the innermost comes first. -/
inductive Activity (β : Type)
  | running (callers : List Caller) (a : Activation) (p : Program) (w : World β)
  /-- A message is over. -/
  | ended (callers : List Caller) (e : Ending) (w : World β)

namespace Activity

variable {β : Type}

/-- The depths of the active invocations, the innermost first. -/
def depths : Activity β → List Nat
  | running callers a _ _ => a.depth :: callers.map (·.depth)
  | ended callers _ _ => callers.map (·.depth)

def world : Activity β → World β
  | running _ _ _ w => w
  | ended _ _ w => w

end Activity

namespace Machine

variable {β : Type} [Store β] (m : Machine) (observer : Observer)

/-- Starts the code of a pending message. -/
def enter (callers : List Caller) (depth : Nat) (p : Pending) (w : World β) : Activity β :=
  .running callers ⟨depth, p, ∅⟩ (m.interpreter (m.invocation depth p))
    (w.write (.enter (m.invocation depth p)))

/-- Begins a message that the first of `callers` sent. -/
def post (callers : List Caller) (depth : Nat) (terms : Terms) (message : Message)
    (w : World β) : Activity β :=
  match m.begin depth terms message w with
  | (.done o, w) => .ended callers (.closed o) w
  | (.pending p, w) => m.enter callers depth p w

/-- Gives the ending of a message to the caller that sent it. -/
def resume : List Caller → Ending → World β → Activity β
  | [], e, w => .ended [] e w
  | c :: callers, .closed o, w =>
    .running callers { c.toActivation with substate := c.substate.absorb o }
      (c.resume (.closed o)) w
  | c :: callers, .uneven o, w =>
    .running callers c.toActivation (c.resume (.uneven o)) (w.remark c.aborted)

/-- What goes on after one request. Once the outermost message is over nothing changes. -/
def next : Activity β → Activity β
  | .ended callers e w => resume callers e w
  | .running callers a p w =>
    let f := m.frame a.depth a.pending.context observer
    let terms := a.pending.context.terms
    match p with
    | .halt h =>
      let (e, w) := m.conclude a.depth a.pending h a.substate w
      .ended callers e w
    | .step i p => .running callers a p (f.observe i w)
    | .read q k => .running callers a (k (f.answer w.ledger q)) w
    | .act e p =>
      let (s, w) := f.act e a.substate w
      .running callers { a with substate := s } p w
    | .call c k =>
      m.post (⟨a, false, fun e => k e.ofCall⟩ :: callers)
        (a.depth + 1) terms (.call c) w
    | .create endowment gas initCode k =>
      m.post (⟨a, true, fun e => k e.ofCreation⟩ :: callers)
        (a.depth + 1) terms (.create ⟨a.pending.context.address, endowment, gas, initCode⟩)
        (w.edit (·.bumpNonce a.pending.context.address))
    | .note s p => .running callers a p (w.write (.note a.depth s))
    | .direct op k =>
      let (answer, l) := w.ledger.perform op
      .running callers a (k answer) { w with ledger := l }

/-- From `a` some number of steps leads to `b`. -/
def Leads (a b : Activity β) : Prop := ∃ n, (m.next observer)^[n] a = b

namespace Leads

variable {m observer} {a b c : Activity β}

theorem refl (a : Activity β) : m.Leads observer a a := ⟨0, rfl⟩

theorem trans (h : m.Leads observer a b) (h' : m.Leads observer b c) : m.Leads observer a c := by
  obtain ⟨n, rfl⟩ := h
  obtain ⟨k, rfl⟩ := h'
  exact ⟨k + n, Function.iterate_add_apply (m.next observer) k n a⟩

theorem step (h : m.Leads observer (m.next observer a) b) : m.Leads observer a b :=
  trans ⟨1, rfl⟩ h

/-- What every step keeps up holds all the way. -/
theorem invariant {P : Activity β → Prop} (hP : ∀ a, P a → P (m.next observer a))
    (h : m.Leads observer a b) (ha : P a) : P b := by
  obtain ⟨n, rfl⟩ := h
  induction n with
  | zero => exact ha
  | succ n ih =>
    rw [Function.iterate_succ_apply']
    exact hP _ ih

end Leads

/-- The invocation at depth `d` runs to its halt, whatever waits for it, if the messages
one level deeper come to their end. -/
theorem leads_running {d : Nat}
    (hpost : ∀ callers t k (w : World β), m.Leads observer (m.post callers (d + 1) t k w)
      (.ended callers (m.send observer (d + 1) t k w).1 (m.send observer (d + 1) t k w).2))
    (callers : List Caller) (q : Pending) (p : Program) (s : Substate) (w : World β) :
    ∃ h s' w', m.runCode observer d q.context p s w = (h, s', w') ∧
      m.Leads observer (.running callers ⟨d, q, s⟩ p w)
        (.ended callers (m.conclude d q h s' w').1 (m.conclude d q h s' w').2) := by
  -- the callers stay: a message puts one more on top and takes it away again
  induction p generalizing s w with
  | halt h => exact ⟨h, s, w, rfl, .step (.refl _)⟩
  | step i p ih =>
    obtain ⟨h, s', w', hr, hl⟩ := ih s ((m.frame d q.context observer).observe i w)
    exact ⟨h, s', w', hr, .step hl⟩
  | read x k ih =>
    obtain ⟨h, s', w', hr, hl⟩ := ih ((m.frame d q.context observer).answer w.ledger x) s w
    exact ⟨h, s', w', hr, .step hl⟩
  | act e p ih =>
    obtain ⟨h, s', w', hr, hl⟩ := ih ((m.frame d q.context observer).act e s w).1
      ((m.frame d q.context observer).act e s w).2
    exact ⟨h, s', w', hr, .step hl⟩
  | note x p ih =>
    obtain ⟨h, s', w', hr, hl⟩ := ih s (w.write (.note d x))
    exact ⟨h, s', w', hr, .step hl⟩
  | direct op k ih =>
    obtain ⟨h, s', w', hr, hl⟩ := ih (w.ledger.perform op).1 s
      { w with ledger := (w.ledger.perform op).2 }
    exact ⟨h, s', w', hr, .step hl⟩
  | call c k ih =>
    let caller : Caller := ⟨⟨d, q, s⟩, false, fun e => k e.ofCall⟩
    have hp := hpost (caller :: callers) q.context.terms (.call c) w
    unfold runCode
    rw [Frame.run]
    rcases hs : m.send observer (d + 1) q.context.terms (.call c) w with ⟨o | o, w₁⟩
    · obtain ⟨h, s', w', hr, hl⟩ := ih o.ofCall (s.absorb o) w₁
      rw [hs] at hp
      exact ⟨h, s', w', hr, .step (hp.trans (.step hl))⟩
    · obtain ⟨h, s', w', hr, hl⟩ := ih .aborted s (w₁.remark (.callAborted (d + 1)))
      rw [hs] at hp
      exact ⟨h, s', w', hr, .step (hp.trans (.step hl))⟩
  | create endowment gas initCode k ih =>
    let message : Message := .create ⟨q.context.address, endowment, gas, initCode⟩
    let caller : Caller := ⟨⟨d, q, s⟩, true, fun e => k e.ofCreation⟩
    have hp := hpost (caller :: callers) q.context.terms message
      (w.edit (·.bumpNonce q.context.address))
    have hcreator : (m.frame d q.context observer).context.address = q.context.address := rfl
    unfold runCode
    rw [Frame.run, hcreator]
    rcases hs : m.send observer (d + 1) q.context.terms message
      (w.edit (·.bumpNonce q.context.address)) with ⟨o | o, w₁⟩
    · obtain ⟨h, s', w', hr, hl⟩ := ih o.ofCreation (s.absorb o) w₁
      rw [hs] at hp
      exact ⟨h, s', w', hr, .step (hp.trans (.step hl))⟩
    · obtain ⟨h, s', w', hr, hl⟩ := ih .aborted s (w₁.remark (.creationAborted (d + 1)))
      rw [hs] at hp
      exact ⟨h, s', w', hr, .step (hp.trans (.step hl))⟩

/-- A message comes to its end, and its ending is the one of `Machine.send`. -/
theorem leads_post (d : Nat) (callers : List Caller) (t : Terms) (k : Message) (w : World β) :
    m.Leads observer (m.post callers d t k w)
      (.ended callers (m.send observer d t k w).1 (m.send observer d t k w).2) := by
  induction d using m.depth_induction generalizing callers t k w with
  | beyond d hd =>
    have hb : m.begin d t k w = (.done (refuse d t k w).1, (refuse d t k w).2) := by
      unfold begin
      rw [if_pos hd]
    rw [m.send_of_lt observer t k w hd]
    unfold post
    rw [hb]
    exact .refl _
  | within d hd ih =>
    unfold post send
    rcases m.begin d t k w with ⟨o | p, w₁⟩
    · exact .refl _
    · obtain ⟨h, s, w₂, hr, hl⟩ := m.leads_running observer ih callers p
        (m.interpreter (m.invocation d p)) ∅ (w₁.write (.enter (m.invocation d p)))
      have hrun : m.run observer d p w₁ = m.conclude d p h s w₂ := by
        have hplay : m.play observer d p w₁ = (h, s, w₂) := hr
        rw [m.run_eq_conclude observer p w₁ hd, hplay]
      dsimp only
      rw [hrun]
      exact hl

/-- The code of a pending message plays at any depth as within the limit. -/
theorem run_eq_play (d : Nat) (p : Pending) (w : World β) :
    m.run observer d p w = m.conclude d p (m.play observer d p w).1 (m.play observer d p w).2.1
      (m.play observer d p w).2.2 := by
  by_cases hd : d ≤ m.rules.callDepthLimit
  · exact m.run_eq_conclude observer p w hd
  · have hlevels : m.rules.callDepthLimit - d = 0 := by omega
    have hsend : m.send (β := β) observer (d + 1) p.context.terms = fun k w =>
        (.closed (refuse (d + 1) p.context.terms k w).1,
          (refuse (d + 1) p.context.terms k w).2) := by
      funext k w
      exact m.send_of_lt observer _ k w (by omega)
    unfold run play runCode
    rw [hlevels, runLevels, hsend]
    rfl

/-- Pending code runs to its end, and the steps are those of `Machine.run`. -/
theorem leads_run (d : Nat) (p : Pending) (w : World β) :
    m.Leads observer (m.enter [] d p w)
      (.ended [] (m.run observer d p w).1 (m.run observer d p w).2) := by
  obtain ⟨h, s, w', hr, hl⟩ := m.leads_running observer (m.leads_post observer (d + 1)) [] p
    (m.interpreter (m.invocation d p)) ∅ (w.write (.enter (m.invocation d p)))
  have hplay : m.play observer d p w = (h, s, w') := hr
  rw [m.run_eq_play observer d p w, hplay]
  exact hl

/-- Once the outermost message is over nothing changes. -/
theorem iterate_ended (n : Nat) (e : Ending) (w : World β) :
    (m.next observer)^[n] (.ended [] e w) = .ended [] e w := by
  induction n with
  | zero => rfl
  | succ n ih => rw [Function.iterate_succ_apply', ih]; rfl

/-- Every step from some point on finds the outermost message over. -/
theorem Leads.iterate_of_le {a : Activity β} {e : Ending} {w : World β} {n k : Nat}
    (h : (m.next observer)^[n] a = .ended [] e w) (hk : n ≤ k) :
    (m.next observer)^[k] a = .ended [] e w := by
  obtain ⟨j, rfl⟩ := Nat.exists_eq_add_of_le' hk
  rw [Function.iterate_add_apply, h, iterate_ended]

end Machine

end Transact
