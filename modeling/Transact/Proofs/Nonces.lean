import Transact.Execution.Command
import Transact.Proofs.Footprint

/-!
Nonces never go back but by a deletion or a creation, so that an accepted transaction is
not accepted again. `Scene.Floor` is the invariant of one command after the other: the
nonce stays where it was counted, also under a checkpoint that may still be reverted. Main
statement: `Execution.nonces_never_go_back`.
-/

namespace Transact

namespace Execution

variable {β : Type} [Store β]

/-- The finalization of `x` deleted the account. -/
def Killed (x : Execution) (a : Address) : Prop :=
  match x.phase with
  | .finalized _ o _ => o.exception = none ∧ a ∈ o.substate.condemned
  | _ => False

theorem Killed.exception {x : Execution} {a : Address} (h : x.Killed a) :
    x.outcome.exception = none := by
  unfold Killed at h
  split at h
  · next hx =>
    unfold outcome
    rw [hx]
    exact h.1
  · exact h.elim

theorem killed_conclude (x : Execution) (a : Accepted) (o : Outcome) (refunded : Quantity)
    (w : World β) (b : Address) :
    (x.conclude a o refunded w).1.Killed b ↔ o.exception = none ∧ b ∈ o.substate.condemned := by
  unfold conclude Killed
  cases ho : o.exception with
  | none => simp
  | some e => simp [ho]

theorem nonce_le_conclude (x : Execution) (a : Accepted) (o : Outcome) (refunded : Quantity)
    (w : World β) {b : Address} (hk : ¬ (x.conclude a o refunded w).1.Killed b) :
    w.ledger.nonce b ≤ (x.conclude a o refunded w).2.ledger.nonce b := by
  rw [killed_conclude, not_and] at hk
  exact (x.keeps_conclude a o refunded w hk).nonce_le

theorem Completed.nonce_le {x x' : Execution} (hi : x.machine.interpreter.Confined)
    {observer : Observer} {task : Task} {w w' : World β} {r : Except Error Unit}
    (h : x.Completed observer w task r x' w') {b : Address}
    (ht : b ∉ creationTargets (w'.since w)) (hk : ¬ x'.Killed b) :
    w.ledger.nonce b ≤ w'.ledger.nonce b := by
  have hc := (x.machine.steady_footprint (β := β) observer).conduct
  cases h with
  | refused =>
    rw [World.ledger_remarks]
    exact Nat.le_refl _
  | message path hs =>
    obtain ⟨es, hf, -⟩ := hc.of_send hi hs
    rw [hf.wrote.since_eq] at ht
    exact hf.nonce_le b ht
  | @finalized a o o' refunded w₁ path ha hs hd =>
    obtain ⟨es, hf, -⟩ := hc.of_send hi hs
    rw [((wrote_charge a w).trans (hf.wrote.trans (wrote_conclude _ _ _ _ _))).since_eq] at ht
    simp only [mem_creationTargets_append, not_or] at ht
    have hcounted : w.ledger.nonce b ≤ (a.charge w).ledger.nonce b :=
      w.ledger.nonce_le_bumpNonce a.sender b
    have hran : w.ledger.nonce b ≤ w₁.ledger.nonce b :=
      Nat.le_trans hcounted (hf.nonce_le b ht.2.1)
    exact Nat.le_trans hran (nonce_le_conclude _ _ _ _ _ hk)

end Execution

/-- Neither was a creation aimed at the account nor did a finalization delete it. -/
def Report.Spares (r : Report) (a : Address) : Prop :=
  a ∉ creationTargets r.diary.toList ∧ ¬ r.execution.Killed a

namespace Ledger

variable {β : Type} [Store β]

theorem nonce_le_perform {j : Job} (hi : j.machine.interpreter.Confined) {l l' : Ledger β}
    {report : Report} (h : j.perform l = .ok (report, l')) {a : Address} (ha : report.Spares a) :
    l.nonce a ≤ l'.nonce a := by
  have hc := Execution.completed rfl hi (Job.perform_eq_ok.mp h)
  have hwrote : (⟨l, #[]⟩ : World β).Wrote ⟨l', report.diary⟩ report.diary.toList := rfl
  refine hc.nonce_le hi ?_ ha.2
  rw [hwrote.since_eq]
  exact ha.1

theorem nonce_le_process {jobs : List Job} (hi : ∀ j ∈ jobs, j.machine.interpreter.Confined)
    {l l' : Ledger β} {reports : List Report} (h : l.process jobs = .ok (reports, l'))
    {a : Address} (ha : ∀ r ∈ reports, r.Spares a) : l.nonce a ≤ l'.nonce a := by
  induction jobs generalizing l reports with
  | nil =>
    cases h
    exact Nat.le_refl _
  | cons j jobs ih =>
    obtain ⟨report, l₁, rest, hj, hjobs, rfl⟩ := processWith_cons_eq_ok.mp h
    rw [List.forall_mem_cons] at hi ha
    exact Nat.le_trans (nonce_le_perform hi.1 hj ha.1) (ih hi.2 hjobs ha.2)

end Ledger

/-! One command after the other. -/

namespace Machine

variable {β : Type} [Store β] (m : Machine)

theorem footprint_begin (d : Nat) (t : Terms) (k : Message) (w : World β) :
    ∃ es, w.Footprint [] (m.begin d t k w).2 es := by
  rcases h : m.begin d t k w with ⟨o | p, w'⟩
  · obtain ⟨hd, hr⟩ | ⟨-, hr⟩ := begin_eq_done h
    · obtain ⟨es, hf, -⟩ := (m.steady_footprint .silent).refuse (t := t) (k := k) (w := w) hd
      rw [hr] at hf
      exact ⟨es, hf⟩
    · exact hr.footprint
  · exact (begin_eq_pending h).2.footprint

/-- Pending code counts up from the nonce it finds, or its message fails and the nonce is
the one under its checkpoint. -/
theorem run_nonce_le (observer : Observer) (hi : m.interpreter.Confined) {d : Nat}
    (hd : d ≤ m.rules.callDepthLimit) {p : Pending} {w : World β} {l : Ledger β}
    (hl : l.push.SameBelow w.ledger) :
    ∃ o w' es, m.run observer d p w = (.closed o, w') ∧ w.Wrote w' es ∧
      ∀ a ∉ creationTargets es,
        w.ledger.nonce a ≤ w'.ledger.nonce a ∨ w'.ledger.nonce a = l.nonce a := by
  have hc := (m.steady_footprint (β := β) observer).conduct
  obtain ⟨h, s, w₂, h', dep, w₃, -, ⟨es, hf, -⟩, hs, hdep, he⟩ :=
    hc.ran hi hd (hc.send hi (d + 1) p.context.terms) hl
  obtain ⟨kept, hk⟩ := hdep.footprint
  obtain ⟨tail, ht, -⟩ := w₃.wrote_closed d (h'.ended p dep s)
  have hran : w.Footprint [p.context.address] w₃ ([.enter (m.invocation d p)] ++ (es ++ kept)) :=
    (World.Footprint.of_ledger_eq (.write w _) rfl).trans (hf.trans hk)
  refine ⟨_, _, _, he, hran.wrote.trans ht, ?_⟩
  intro a ha
  rw [mem_creationTargets_append, not_or] at ha
  by_cases ho : (h'.ended p dep s).exception = none
  · rw [World.ledger_closed_of_none ho, Ledger.nonce_pop_commit]
    exact .inl (hran.nonce_le a ha.1)
  · rw [World.ledger_closed_of_some ho, (hs.trans hdep.sameBelow).pop_revert_of_push]
    exact .inr rfl

end Machine

namespace Execution

variable {β : Type} [Store β]

/-- The nonce is at least `n`, and stays so if the message that waits is reverted. -/
structure Scene.Floor (a : Address) (n : Quantity) (s : Scene β) : Prop where
  confined : s.execution.machine.interpreter.Confined
  le : n ≤ s.world.ledger.nonce a
  awaiting : ∀ t p, s.execution.phase = .awaiting t p →
    s.execution.depth ≤ s.execution.machine.rules.callDepthLimit ∧
      ∃ l : Ledger β, l.push.SameBelow s.world.ledger ∧ n ≤ l.nonce a

/-- `s'` follows `s` by commands and new executions, and on the way neither was a creation
aimed at the account nor did a finalization delete it. -/
inductive Scene.Spares (a : Address) : Scene β → Scene β → Prop
  | refl (s : Scene β) : Spares a s s
  | new {s s' : Scene β} (h : Spares a s s') {m : Machine} (hi : m.interpreter.Confined)
      (depth : Nat) : Spares a s { s' with execution := .new m depth }
  | command {s s' s'' : Scene β} (h : Spares a s s') {c : Command} {r : Reply}
      (hc : s'.perform c = .ok (r, s''))
      (ht : a ∉ creationTargets (s''.world.since s'.world)) (hk : ¬ s''.execution.Killed a) :
      Spares a s s''

variable {a : Address} {n : Quantity} {s s' : Scene β}

/-- A message that begins leaves a scene with the same floor. -/
theorem Scene.Floor.start {x : Execution} (hi : x.machine.interpreter.Confined)
    (parent : Substate) {accepted : Option Accepted} {terms : Terms} {message : Message}
    {w : World β} (hn : n ≤ w.ledger.nonce a)
    (ht : ∀ es, w.Wrote (x.start accepted terms message w).2.2 es → a ∉ creationTargets es) :
    Floor a n (⟨(x.start accepted terms message w).2.1, parent,
      (x.start accepted terms message w).2.2⟩ : Scene β) := by
  obtain ⟨es, hf⟩ := x.machine.footprint_begin x.depth terms message w
  unfold Execution.start at ht ⊢
  rcases hb : x.machine.begin x.depth terms message w with ⟨o | p, w'⟩
  · rw [hb] at ht hf
    exact ⟨hi, Nat.le_trans hn (hf.nonce_le a (ht es hf.wrote)), nofun⟩
  · obtain ⟨hd, hr⟩ := Machine.begin_eq_pending hb
    rw [hb] at ht hf
    refine ⟨hi, Nat.le_trans hn (hf.nonce_le a (ht es hf.wrote)), ?_⟩
    intro t p' hp
    exact ⟨hd, w.ledger, hr.sameBelow_of_pending, hn⟩

namespace Scene.Floor

variable (h : Scene.Floor a n s)
include h

theorem accept (t : Transaction) :
    Scene.Floor a n (⟨(s.execution.accept t s.world).2.1, s.parent,
      (s.execution.accept t s.world).2.2⟩ : Scene β) := by
  unfold Execution.accept
  split
  · split
    · next accepted _ =>
      exact ⟨h.confined, Nat.le_trans h.le (s.world.ledger.nonce_le_bumpNonce accepted.sender a),
        nofun⟩
    · next rejection _ =>
      refine ⟨h.confined, ?_, nofun⟩
      dsimp only
      rw [World.ledger_remarks]
      exact h.le
  · exact h

theorem execute (ht : a ∉ creationTargets ((s.execution.execute s.world).2.2.since s.world)) :
    Scene.Floor a n (⟨(s.execution.execute s.world).2.1, s.parent,
      (s.execution.execute s.world).2.2⟩ : Scene β) := by
  unfold Execution.execute at ht ⊢
  split
  · split
    · exact ⟨h.confined, h.le, nofun⟩
    · next accepted hx _ l hl =>
      have hpaid : n ≤ l.nonce a := Nat.le_trans h.le (Ledger.Keeps.of_debit hl a).nonce_le
      rw [hx] at ht
      dsimp only at ht
      rw [hl] at ht
      refine .start h.confined s.parent hpaid fun es hw => ?_
      have hall : s.world.Wrote _ ([.event accepted.event] ++ es) :=
        World.Wrote.trans (.write s.world _) hw
      rw [hall.since_eq, mem_creationTargets_append, not_or] at ht
      exact ht.2
  · exact h

theorem dispatch (terms : Terms) (message : Message)
    (ht : a ∉ creationTargets ((s.execution.dispatch terms message s.world).2.2.since s.world)) :
    Scene.Floor a n (⟨(s.execution.dispatch terms message s.world).2.1, s.parent,
      (s.execution.dispatch terms message s.world).2.2⟩ : Scene β) := by
  unfold Execution.dispatch at ht ⊢
  split
  · next hx =>
    rw [hx] at ht
    refine .start h.confined s.parent h.le fun es hw => ?_
    rw [hw.since_eq] at ht
    exact ht
  · exact h

theorem run (observer : Observer)
    (ht : a ∉ creationTargets ((s.execution.run observer s.world).2.2.since s.world)) :
    Scene.Floor a n (⟨(s.execution.run observer s.world).2.1, s.parent,
      (s.execution.run observer s.world).2.2⟩ : Scene β) := by
  unfold Execution.run at ht ⊢
  split
  · next t p hx =>
    obtain ⟨hd, l, hl, hn⟩ := h.awaiting t p hx
    obtain ⟨o, w', es, he, hw, hnonce⟩ :=
      s.execution.machine.run_nonce_le observer h.confined hd (p := p) hl
    rw [hx] at ht
    dsimp only at ht ⊢
    rw [he] at ht ⊢
    rw [hw.since_eq] at ht
    refine ⟨h.confined, ?_, nofun⟩
    rcases hnonce a ht with hle | heq
    · exact Nat.le_trans h.le hle
    · dsimp only
      rw [heq]
      exact hn
  · exact h

theorem finalize {r : Except Error Unit} {x : Execution} {w : World β}
    (hf : s.execution.finalize s.world = .ok (r, x, w)) (hk : ¬ x.Killed a) :
    Scene.Floor a n (⟨x, s.parent, w⟩ : Scene β) := by
  have hf' := hf
  unfold Execution.finalize at hf'
  split at hf'
  · next accepted o hx =>
    obtain ⟨o', refunded, -, -, hc⟩ := finalize_eq_conclude hx hf
    obtain ⟨o'', logs, hphase⟩ := s.execution.phase_conclude accepted o' refunded s.world
    obtain ⟨rfl, rfl⟩ := Prod.mk.inj hc
    exact ⟨h.confined, Nat.le_trans h.le (nonce_le_conclude _ _ _ _ _ hk),
      fun t p hp => Phase.noConfusion (hphase.symm.trans hp)⟩
  · cases hf'
    exact h

theorem handOver :
    Scene.Floor a n (⟨(s.execution.handOver s.parent).2.1, (s.execution.handOver s.parent).2.2,
      s.world⟩ : Scene β) := by
  unfold Execution.handOver
  split
  · split
    · exact ⟨h.confined, h.le, h.awaiting⟩
    · exact ⟨h.confined, h.le, nofun⟩
  · exact ⟨h.confined, h.le, h.awaiting⟩

/-- Each command keeps the floor. -/
theorem perform {c : Command} {r : Reply} (hc : s.perform c = .ok (r, s'))
    (ht : a ∉ creationTargets (s'.world.since s.world)) (hk : ¬ s'.execution.Killed a) :
    Scene.Floor a n s' := by
  unfold Scene.perform at hc
  cases c with
  | accept t =>
    cases hc
    exact h.accept t
  | execute =>
    cases hc
    exact h.execute ht
  | dispatch terms message =>
    cases hc
    exact h.dispatch terms message ht
  | run observer =>
    cases hc
    exact h.run observer ht
  | finalize =>
    cases hf : s.execution.finalize s.world with
    | error f =>
      rw [hf] at hc
      cases hc
    | ok done =>
      rw [hf] at hc
      cases hc
      exact h.finalize hf hk
  | handOver =>
    cases hc
    exact h.handOver
  | requestSummary withPath =>
    cases hc
    exact ⟨h.confined, h.le, h.awaiting⟩
  | takeSummary =>
    cases hc
    exact ⟨h.confined, h.le, h.awaiting⟩

end Scene.Floor

/-- So do all of them, by induction on what follows. -/
theorem Scene.Spares.floor (hs : Scene.Spares a s s') (h : Scene.Floor a n s) :
    Scene.Floor a n s' := by
  induction hs with
  | refl => exact h
  | new _ hi _ ih => exact ⟨hi, ih.le, nofun⟩
  | command _ hc ht hk ih => exact ih.perform hc ht hk

end Execution

/-- What was accepted once fails for its nonce when the nonce of its sender is another,
whatever else has changed. -/
theorem Machine.validate_of_nonce_ne {β : Type} [Store β] {m m' : Machine}
    (hm : m'.rules = m.rules) {l l' : Ledger β} {t : Transaction} {a : Accepted}
    (h : m.validate l t = .ok a) (hn : l'.nonce a.sender ≠ t.nonce) :
    m'.validate l' t =
      .error ⟨.invalidNonce, some (.invalidNonce (l'.nonce a.sender) t.nonce)⟩ := by
  obtain ⟨rfl, ha⟩ := admits_of_validate h
  unfold validate at h ⊢
  rw [ha.sender] at h ⊢
  obtain ⟨gas, hg, -⟩ := bind_eq_ok.mp h
  rw [hm]
  dsimp only
  rw [hg]
  exact if_pos hn

namespace Execution

variable {β : Type} [Store β]

/-- An accepted transaction sets a floor above its own nonce. -/
theorem floor_of_accept {x x' : Execution} (hi : x.machine.interpreter.Confined)
    {t : Transaction} {w w' : World β} (h : x.accept t w = (.ok (), x', w')) :
    ∃ a, x.machine.validate w.ledger t = .ok a ∧ t.sender = some a.sender ∧
      ∀ parent, Scene.Floor a.sender (t.nonce + 1) (⟨x', parent, w'⟩ : Scene β) := by
  obtain ⟨a, hv, rfl, rfl⟩ := accept_eq_ok h
  obtain ⟨rfl, ha⟩ := Machine.admits_of_validate hv
  refine ⟨a, hv, ha.sender, fun parent => ⟨hi, ?_, nofun⟩⟩
  change _ ≤ (w.ledger.bumpNonce a.sender).nonce a.sender
  unfold Ledger.bumpNonce
  rw [Ledger.nonce_setNonce, if_pos rfl, ha.nonce]
  exact Nat.le_refl _

/-- Whatever jobs a ledger goes through, a nonce does not go back unless a creation was
aimed at its account or a finalization deleted it; sound jobs all come to their ends. And
once a transaction is accepted, no new execution with the same rules accepts it again
after any commands, nor writes anything, as long as its sender is spared these two. -/
theorem nonces_never_go_back :
    (∀ (jobs : List Job) (l : Ledger β), (∀ j ∈ jobs, j.Sound) →
      ∃ reports l', l.process jobs = .ok (reports, l')) ∧
    (∀ (jobs : List Job) (l l' : Ledger β) (reports : List Report),
      (∀ j ∈ jobs, j.machine.interpreter.Confined) → l.process jobs = .ok (reports, l') →
      ∀ a, (∀ r ∈ reports, r.Spares a) → l.nonce a ≤ l'.nonce a) ∧
    (∀ (x x₁ : Execution) (t : Transaction) (w w₁ : World β),
      x.machine.interpreter.Confined → x.accept t w = (.ok (), x₁, w₁) →
      t.nonce.toNat < 2 ^ 256 - 1 →
      ∃ sender, t.sender = some sender ∧
        ∀ (parent : Substate) (s : Scene β), Scene.Spares sender ⟨x₁, parent, w₁⟩ s →
        ∀ (m : Machine) (depth : Nat), m.rules = x.machine.rules →
          ∃ x₂ w₂, (Execution.new m depth).accept t s.world =
              (.error (.rejected .invalidNonce), x₂, w₂) ∧
            w₂.ledger = s.world.ledger) := by
  refine ⟨fun jobs l h => Ledger.processWith_sound h id l,
    fun jobs l l' reports hi h a ha => Ledger.nonce_le_process hi h ha, ?_⟩
  intro x x₁ t w w₁ hi h hn
  obtain ⟨a, hv, hsender, hfloor⟩ := floor_of_accept hi h
  refine ⟨a.sender, hsender, ?_⟩
  intro parent s hs m depth hm
  have hle := (hs.floor (hfloor parent)).le
  have hne : s.world.ledger.nonce a.sender ≠ t.nonce := by
    intro he
    rw [he, Quantity.le_def, Quantity.toNat_add, Quantity.toNat_one] at hle
    unfold Quantity.most at hle
    omega
  have hstale : m.validate s.world.ledger t = _ := Machine.validate_of_nonce_ne hm hv hne
  unfold accept
  dsimp only [new]
  rw [hstale]
  exact ⟨_, _, rfl, World.ledger_remarks _ _⟩

end Execution

/-- Code that fails rolls its message back, and its transaction stays counted. -/
theorem failed_transaction_is_not_replayed :
    (∃ reports l', World.plain.ledger.process [.toSelf .failing] = .ok (reports, l') ∧
      World.plain.ledger.nonce 7 ≤ l'.nonce 7) ∧
    ∃ x₁ w₁ s x₂ w₂, (Execution.new (.plain .failing) 0).accept .toSelf .plain =
        (.ok (), x₁, w₁) ∧
      Execution.Scene.Spares 7 ⟨x₁, ∅, w₁⟩ s ∧
      s.execution.outcome.exception = some .outOfGas ∧
      (Execution.new (.plain .failing) 0).accept .toSelf s.world =
        (.error (.rejected .invalidNonce), x₂, w₂) ∧
      w₂.ledger = s.world.ledger := by
  obtain ⟨hends, hgrows, hstale⟩ := Execution.nonces_never_go_back (β := State)
  have hsound : ∀ j ∈ [Job.toSelf .failing], j.Sound := by
    intro j hj
    cases List.mem_singleton.mp hj
    exact ⟨Interpreter.confined_failing, by decide⟩
  constructor
  · obtain ⟨reports, l', h⟩ := hends [.toSelf .failing] World.plain.ledger hsound
    refine ⟨reports, l', h, hgrows _ _ _ _ (fun j hj => (hsound j hj).confined) h 7 ?_⟩
    have hseen : (World.plain.ledger.process [.toSelf .failing]).map (fun done =>
        done.1.map fun r => (creationTargets r.diary.toList, r.execution.outcome.exception)) =
        .ok [([], some .outOfGas)] := by decide +kernel
    rw [h] at hseen
    intro r hr
    have hmem := List.mem_map_of_mem (f := fun r : Report =>
      (creationTargets r.diary.toList, r.execution.outcome.exception)) hr
    have hone : reports.map (fun r => (creationTargets r.diary.toList,
        r.execution.outcome.exception)) = _ := Except.ok.inj hseen
    rw [hone, List.mem_singleton, Prod.mk.injEq] at hmem
    refine ⟨by rw [hmem.1]; exact List.not_mem_nil, fun hk => ?_⟩
    rw [hk.exception] at hmem
    cases hmem.2
  · obtain ⟨sender, hsender, hrest⟩ := hstale (.new (.plain .failing) 0) _ .toSelf .plain _
      Interpreter.confined_failing rfl (by decide)
    cases hsender
    have hs : Execution.Scene.Spares 7
        (⟨((Execution.new (.plain .failing) 0).accept .toSelf World.plain).2.1, ∅,
          ((Execution.new (.plain .failing) 0).accept .toSelf World.plain).2.2⟩ :
            Execution.Scene State) _ :=
      .command (.command (.refl _) (c := .execute) rfl (by decide +kernel) id)
        (c := .run .silent) rfl (by decide +kernel) id
    obtain ⟨x₂, w₂, h, hl⟩ := hrest ∅ _ hs (.plain .failing) 0 rfl
    exact ⟨_, _, _, x₂, w₂, rfl, hs, rfl, h, hl⟩

end Transact
