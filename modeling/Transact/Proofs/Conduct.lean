import Transact.Proofs.Messages

/-!
Induction over the runs of confined code. `Conduct` lists what a relation over
programs and one over messages must keep up, request by request; `Conduct.send`
then gives it of every message. `Steady` is the same for relations that do not
look at the program.
-/

namespace Transact

namespace World

variable {β : Type}

@[simp] theorem ledger_remarks (rs : List Remark) (w : World β) :
    (w.remarks rs).ledger = w.ledger := by
  unfold remarks
  induction rs generalizing w with
  | nil => rfl
  | cons r rs ih => exact ih (w.remark r)

end World

namespace Frame

variable {β : Type} (f : Frame)

theorem ledger_observe (i : Instruction) (w : World β) : (f.observe i w).ledger = w.ledger :=
  World.ledger_remarks _ _

theorem sameBelow_act [Store β] (e : Effect) (s : Substate) (w : World β) :
    w.ledger.SameBelow (f.act e s w).2.ledger := by
  cases e <;> exact ⟨rfl, rfl⟩

end Frame

namespace Machine

variable {β : Type} [Store β] (m : Machine) (observer : Observer)

/-- What the interpreter is given for pending code. -/
def invocation (depth : Nat) (p : Pending) : Invocation :=
  ⟨depth, p.context, m.block.toHeader, p.gas, p.code, p.input⟩

/-- Runs code whose nested messages are carried out one level deeper. -/
def runCode (depth : Nat) (c : Context) :
    Program → Substate → World β → Halt × Substate × World β :=
  (m.frame depth c observer).run (m.send observer (depth + 1) c.terms)

/-- Runs the code of a message to its halt. -/
def play (depth : Nat) (p : Pending) (w : World β) : Halt × Substate × World β :=
  m.runCode observer depth p.context (m.interpreter (m.invocation depth p)) ∅
    (w.write (.enter (m.invocation depth p)))

theorem run_eq_conclude {depth : Nat} (p : Pending) (w : World β)
    (hd : depth ≤ m.rules.callDepthLimit) :
    m.run observer depth p w =
      m.conclude depth p (m.play observer depth p w).1 (m.play observer depth p w).2.1
        (m.play observer depth p w).2.2 :=
  m.run_eq observer depth p w hd

theorem send_of_lt {depth : Nat} (terms : Terms) (message : Message) (w : World β)
    (hd : m.rules.callDepthLimit < depth) :
    m.send observer depth terms message w =
      (.closed (refuse depth terms message w).1, (refuse depth terms message w).2) := by
  unfold send begin
  rw [if_pos hd]

theorem begin_of_le {depth : Nat} (terms : Terms) (message : Message) (w : World β)
    (hd : depth ≤ m.rules.callDepthLimit) :
    m.begin depth terms message w = m.receive depth terms message w := by
  unfold begin
  exact if_neg (Nat.not_lt.mpr hd)

/-- Induction on the levels left: the messages nested in a message are one level
deeper, and beyond the depth limit there are none. -/
theorem depth_induction {P : Nat → Prop} (beyond : ∀ d, m.rules.callDepthLimit < d → P d)
    (within : ∀ d, d ≤ m.rules.callDepthLimit → P (d + 1) → P d) (d : Nat) : P d := by
  obtain ⟨n, hn⟩ : ∃ n, m.rules.callDepthLimit < d + n := ⟨m.rules.callDepthLimit + 1, by omega⟩
  induction n generalizing d with
  | zero => exact beyond d hn
  | succ n ih =>
    by_cases hd : d ≤ m.rules.callDepthLimit
    · exact within d hd (ih (d + 1) (by omega))
    · exact beyond d (Nat.lt_of_not_le hd)

section Begin

variable {m} {depth : Nat} {terms : Terms} {message : Message} {w w' : World β}

/-- A message that is done as soon as it is begun was refused for its depth, or had no
code to run. -/
theorem begin_eq_done {o : Outcome} (h : m.begin depth terms message w = (.done o, w')) :
    m.rules.callDepthLimit < depth ∧ refuse depth terms message w = (o, w') ∨
      depth ≤ m.rules.callDepthLimit ∧ m.Received depth terms message w (.done o) w' := by
  by_cases hd : depth ≤ m.rules.callDepthLimit
  · have hr := m.received depth terms message w
    rw [m.begin_of_le terms message w hd] at h
    rw [h] at hr
    exact .inr ⟨hd, hr⟩
  · have hlt := Nat.lt_of_not_le hd
    unfold begin at h
    rw [if_pos hlt] at h
    cases h
    exact .inl ⟨hlt, rfl⟩

theorem begin_eq_pending {p : Pending} (h : m.begin depth terms message w = (.pending p, w')) :
    depth ≤ m.rules.callDepthLimit ∧ m.Received depth terms message w (.pending p) w' := by
  by_cases hd : depth ≤ m.rules.callDepthLimit
  · have hr := m.received depth terms message w
    rw [m.begin_of_le terms message w hd] at h
    rw [h] at hr
    exact ⟨hd, hr⟩
  · unfold begin at h
    rw [if_pos (Nat.lt_of_not_le hd)] at h
    cases h

end Begin

section Requests

variable {m observer} {depth : Nat} {c : Context} {s : Substate} {w w' : World β} {o : Outcome}

/-- Code that calls goes on with what became of the call. -/
theorem runCode_call {call : Call}
    (hs : m.send observer (depth + 1) c.terms (.call call) w = (.closed o, w'))
    (next : CallReport → Program) :
    m.runCode observer depth c (.call call next) s w =
      m.runCode observer depth c (next o.ofCall) (s.absorb o) w' := by
  unfold runCode
  rw [Frame.run, hs]

theorem runCode_create {endowment gas : Quantity} {initCode : Bytes}
    (hs : m.send observer (depth + 1) c.terms (.create ⟨c.address, endowment, gas, initCode⟩)
      (w.edit (·.bumpNonce c.address)) = (.closed o, w'))
    (next : CreationReport → Program) :
    m.runCode observer depth c (.create endowment gas initCode next) s w =
      m.runCode observer depth c (next o.ofCreation) (s.absorb o) w' := by
  have hcreator : (m.frame depth c observer).context.address = c.address := rfl
  unfold runCode
  rw [Frame.run, hcreator, hs]

end Requests

/-- `F` tells what running a program does, `M` what carrying out a message does. -/
structure Conduct
    (F : Nat → Context → Program → Substate → World β → Halt × Substate × World β → Prop)
    (M : Nat → Terms → Message → World β → Outcome → World β → Prop) : Prop where
  halt {d c h s w} : F d c (.halt h) s w (h, s, w)
  step {d c i next s w r} (hn : F d c next s ((m.frame d c observer).observe i w) r) :
    F d c (.step i next) s w r
  read {d c q next s w r}
    (hn : F d c (next ((m.frame d c observer).answer w.ledger q)) s w r) :
    F d c (.read q next) s w r
  act {d c e next s w r}
    (hn : F d c next ((m.frame d c observer).act e s w).1
      ((m.frame d c observer).act e s w).2 r) :
    F d c (.act e next) s w r
  note {d c x next s w r} (hn : F d c next s (w.write (.note d x)) r) :
    F d c (.note x next) s w r
  call {d c k next s w o w₁ r} (hm : M (d + 1) c.terms (.call k) w o w₁)
    (hn : F d c (next o.ofCall) (s.absorb o) w₁ r) : F d c (.call k next) s w r
  create {d c endowment gas initCode next s w o w₁ r}
    (hm : M (d + 1) c.terms (.create ⟨c.address, endowment, gas, initCode⟩)
      (w.edit (·.bumpNonce c.address)) o w₁)
    (hn : F d c (next o.ofCreation) (s.absorb o) w₁ r) :
    F d c (.create endowment gas initCode next) s w r
  refuse {d t k w} (hd : m.rules.callDepthLimit < d) :
    M d t k w (refuse d t k w).1 (refuse d t k w).2
  done {d t k w o w'} (hd : d ≤ m.rules.callDepthLimit)
    (hr : m.Received d t k w (.done o) w') : M d t k w o w'
  close {d t k w p w₁ h s w₂ h' dep w₃} (hd : d ≤ m.rules.callDepthLimit)
    (hr : m.Received d t k w (.pending p) w₁) (hp : m.play observer d p w₁ = (h, s, w₂))
    (hf : F d p.context (m.interpreter (m.invocation d p)) ∅
      (w₁.write (.enter (m.invocation d p))) (h, s, w₂))
    (hs : w.ledger.push.SameBelow w₂.ledger) (hdep : m.Deposited p h w₂ h' dep w₃) :
    M d t k w (h'.ended p dep s) (w₃.closed d (h'.ended p dep s))

namespace Conduct

variable {m observer}
  {F : Nat → Context → Program → Substate → World β → Halt × Substate × World β → Prop}
  {M : Nat → Terms → Message → World β → Outcome → World β → Prop}

/-- A frame whose nested messages keep to `M` keeps to `F`. -/
theorem frame (hc : m.Conduct observer F M) {d : Nat} {c : Context}
    {send : Message → World β → Ending × World β}
    (hsend : ∀ k w, ∃ o w', send k w = (.closed o, w') ∧ w.ledger.SameBelow w'.ledger ∧
      M (d + 1) c.terms k w o w')
    (p : Program) (hp : p.Confined) (s : Substate) (w : World β) :
    w.ledger.SameBelow ((m.frame d c observer).run send p s w).2.2.ledger ∧
      F d c p s w ((m.frame d c observer).run send p s w) := by
  induction p generalizing s w with
  | halt h => exact ⟨.refl _, hc.halt⟩
  | step i next ih =>
    obtain ⟨hb, hf⟩ := ih hp s ((m.frame d c observer).observe i w)
    rw [(m.frame d c observer).ledger_observe] at hb
    exact ⟨hb, hc.step hf⟩
  | read q next ih =>
    obtain ⟨hb, hf⟩ := ih ((m.frame d c observer).answer w.ledger q) (hp _) s w
    exact ⟨hb, hc.read hf⟩
  | act e next ih =>
    obtain ⟨hb, hf⟩ := ih hp ((m.frame d c observer).act e s w).1
      ((m.frame d c observer).act e s w).2
    exact ⟨((m.frame d c observer).sameBelow_act e s w).trans hb, hc.act hf⟩
  | call k next ih =>
    obtain ⟨o, w₁, he, hb₁, hm⟩ := hsend (.call k) w
    obtain ⟨hb, hf⟩ := ih o.ofCall (hp _) (s.absorb o) w₁
    rw [Frame.run, he]
    exact ⟨hb₁.trans hb, hc.call hm hf⟩
  | create endowment gas initCode next ih =>
    obtain ⟨o, w₁, he, hb₁, hm⟩ :=
      hsend (.create ⟨c.address, endowment, gas, initCode⟩) (w.edit (·.bumpNonce c.address))
    obtain ⟨hb, hf⟩ := ih o.ofCreation (hp _) (s.absorb o) w₁
    have hw : w.ledger.SameBelow w₁.ledger := ⟨hb₁.base, hb₁.below⟩
    have hcreator : (m.frame d c observer).context.address = c.address := rfl
    rw [Frame.run, hcreator, he]
    exact ⟨hw.trans hb, hc.create hm hf⟩
  | note x next ih =>
    obtain ⟨hb, hf⟩ := ih hp s (w.write (.note d x))
    exact ⟨hb, hc.note hf⟩
  | direct op next => exact hp.elim

/-- Pending code whose checkpoint was opened on `l`. -/
theorem ran (hc : m.Conduct observer F M) (hi : m.interpreter.Confined) {d : Nat}
    (hd : d ≤ m.rules.callDepthLimit) {p : Pending}
    (hsend : ∀ k w, ∃ o w', m.send observer (d + 1) p.context.terms k w = (.closed o, w') ∧
      w.ledger.SameBelow w'.ledger ∧ M (d + 1) p.context.terms k w o w')
    {w : World β} {l : Ledger β} (hl : l.push.SameBelow w.ledger) :
    ∃ h s w₂ h' dep w₃, m.play observer d p w = (h, s, w₂) ∧
      F d p.context (m.interpreter (m.invocation d p)) ∅ (w.write (.enter (m.invocation d p)))
        (h, s, w₂) ∧
      l.push.SameBelow w₂.ledger ∧ m.Deposited p h w₂ h' dep w₃ ∧
      m.run observer d p w = (.closed (h'.ended p dep s), w₃.closed d (h'.ended p dep s)) := by
  obtain ⟨hb, hf⟩ := hc.frame hsend (m.interpreter (m.invocation d p)) (hi _) ∅
    (w.write (.enter (m.invocation d p)))
  have hs : l.push.SameBelow (m.play observer d p w).2.2.ledger := hl.trans hb
  have hopen : (m.play observer d p w).2.2.ledger.openCount ≠ 0 := by
    rw [hs.openCount_of_push]
    exact Nat.succ_ne_zero _
  obtain ⟨h', dep, w₃, hdep, he⟩ :=
    m.conclude_of_open d p (m.play observer d p w).1 (m.play observer d p w).2.1 hopen
  exact ⟨_, _, _, h', dep, w₃, rfl, hf, hs, hdep, (m.run_eq_conclude observer p w hd).trans he⟩

/-- A message within the depth limit. -/
theorem message (hc : m.Conduct observer F M) (hi : m.interpreter.Confined) {d : Nat}
    (hd : d ≤ m.rules.callDepthLimit)
    (hsend : ∀ t k w, ∃ o w', m.send observer (d + 1) t k w = (.closed o, w') ∧
      w.ledger.SameBelow w'.ledger ∧ M (d + 1) t k w o w')
    (t : Terms) (k : Message) (w : World β) :
    ∃ o w', m.send observer d t k w = (.closed o, w') ∧ w.ledger.SameBelow w'.ledger ∧
      M d t k w o w' := by
  have hr := m.received d t k w
  unfold Machine.send
  rw [m.begin_of_le t k w hd]
  rcases hw : m.receive d t k w with ⟨o | p, w₁⟩
  · rw [hw] at hr
    exact ⟨o, w₁, rfl, hr.sameBelow_of_done, hc.done hd hr⟩
  · rw [hw] at hr
    dsimp only at hr ⊢
    obtain ⟨h, s, w₂, h', dep, w₃, hp, hf, hs, hdep, he⟩ :=
      hc.ran hi hd (hsend p.context.terms) hr.sameBelow_of_pending
    refine ⟨_, _, he, ?_, hc.close hd hr hp hf hs hdep⟩
    have hs₃ := hs.trans hdep.sameBelow
    by_cases hx : (h'.ended p dep s).exception = none
    · rw [World.ledger_closed_of_none hx]
      exact hs₃.pop_commit_of_push
    · rw [World.ledger_closed_of_some hx, hs₃.pop_revert_of_push]
      exact .refl _

/-- Every message is closed and keeps to `M`. -/
theorem send (hc : m.Conduct observer F M) (hi : m.interpreter.Confined) (d : Nat) (t : Terms)
    (k : Message) (w : World β) :
    ∃ o w', m.send observer d t k w = (.closed o, w') ∧ w.ledger.SameBelow w'.ledger ∧
      M d t k w o w' := by
  induction d using m.depth_induction generalizing t k w with
  | beyond d hd =>
    refine ⟨_, _, m.send_of_lt observer t k w hd, ?_, hc.refuse hd⟩
    rw [ledger_refuse]
    exact k.sameBelow_leftOver w.ledger
  | within d hd ih => exact hc.message hi hd ih t k w

/-- The same of an outcome already known. -/
theorem of_send (hc : m.Conduct observer F M) (hi : m.interpreter.Confined) {d : Nat} {t : Terms}
    {k : Message} {w w' : World β} {o : Outcome}
    (hs : m.send observer d t k w = (.closed o, w')) : M d t k w o w' := by
  obtain ⟨o₁, w₁, he, -, hm⟩ := hc.send hi d t k w
  rw [hs] at he
  cases he
  exact hm

end Conduct

/-- `R` tells how side effects and world go on in a frame, whatever its program:
each request keeps to it, and it composes. -/
structure Steady (R : Nat → Context → Substate → World β → Substate → World β → Prop)
    (M : Nat → Terms → Message → World β → Outcome → World β → Prop) : Prop where
  refl {d c s w} : R d c s w s w
  trans {d c s w s₁ w₁ s₂ w₂} (h : R d c s w s₁ w₁) (h' : R d c s₁ w₁ s₂ w₂) : R d c s w s₂ w₂
  observe {d c i s w} : R d c s w s ((m.frame d c observer).observe i w)
  act {d c e s w} :
    R d c s w ((m.frame d c observer).act e s w).1 ((m.frame d c observer).act e s w).2
  note {d c x s w} : R d c s w s (w.write (.note d x))
  call {d c k s w o w₁} (hm : M (d + 1) c.terms (.call k) w o w₁) :
    R d c s w (s.absorb o) w₁
  create {d c endowment gas initCode s w o w₁}
    (hm : M (d + 1) c.terms (.create ⟨c.address, endowment, gas, initCode⟩)
      (w.edit (·.bumpNonce c.address)) o w₁) : R d c s w (s.absorb o) w₁
  refuse {d t k w} (hd : m.rules.callDepthLimit < d) :
    M d t k w (refuse d t k w).1 (refuse d t k w).2
  done {d t k w o w'} (hd : d ≤ m.rules.callDepthLimit)
    (hr : m.Received d t k w (.done o) w') : M d t k w o w'
  close {d t k w p w₁ h s w₂ h' dep w₃} (hd : d ≤ m.rules.callDepthLimit)
    (hr : m.Received d t k w (.pending p) w₁) (hp : m.play observer d p w₁ = (h, s, w₂))
    (hf : R d p.context ∅ (w₁.write (.enter (m.invocation d p))) s w₂)
    (hs : w.ledger.push.SameBelow w₂.ledger) (hdep : m.Deposited p h w₂ h' dep w₃) :
    M d t k w (h'.ended p dep s) (w₃.closed d (h'.ended p dep s))

theorem Steady.conduct {m : Machine} {observer : Observer}
    {R : Nat → Context → Substate → World β → Substate → World β → Prop}
    {M : Nat → Terms → Message → World β → Outcome → World β → Prop}
    (hs : m.Steady observer R M) :
    m.Conduct observer (fun d c _ s w r => R d c s w r.2.1 r.2.2) M where
  halt := hs.refl
  step hn := hs.trans hs.observe hn
  read hn := hn
  act hn := hs.trans hs.act hn
  note hn := hs.trans hs.note hn
  call hm hn := hs.trans (hs.call hm) hn
  create hm hn := hs.trans (hs.create hm) hn
  refuse := hs.refuse
  done := hs.done
  close := hs.close

/-- No message takes away its checkpoint, and none writes below it. -/
theorem send_closed (hi : m.interpreter.Confined) (d : Nat) (t : Terms) (k : Message)
    (w : World β) :
    ∃ o w', m.send observer d t k w = (.closed o, w') ∧ w.ledger.SameBelow w'.ledger := by
  have hc : m.Conduct observer (fun _ _ _ _ _ _ => True)
      (fun _ _ _ (_ : World β) _ _ => True) := by
    constructor <;> intros <;> trivial
  obtain ⟨o, w', he, hb, -⟩ := hc.send hi d t k w
  exact ⟨o, w', he, hb⟩

end Machine

end Transact
