import Transact.Ledger.Lemmas
import Transact.Proofs.Ether
import Transact.Proofs.Jobs
import Transact.Proofs.Nesting

/-!
Which accounts a run can write to. Code, storage and nonce of an account change only if
code runs for it or a creation is aimed at it, and a nonce only grows unless a creation is
aimed at its account. Main statement: `Execution.accounts_are_isolated`.
-/

namespace Transact

namespace Entry

/-- Where a creation was attempted. -/
def target? : Entry → Option Address
  | .event (.create _ address _ _ _ _) => some address
  | _ => none

/-- The account for which code starts to run. -/
def runner? : Entry → Option Address
  | .enter v => some v.context.address
  | _ => none

end Entry

/-- Where creations were attempted in `es`, whether they succeeded or not. -/
def creationTargets (es : List Entry) : List Address := es.filterMap Entry.target?

/-- The accounts for which code started to run in `es`, at any depth. -/
def runners (es : List Entry) : List Address := es.filterMap Entry.runner?

@[simp] theorem mem_creationTargets_append {a : Address} {es es' : List Entry} :
    a ∈ creationTargets (es ++ es') ↔ a ∈ creationTargets es ∨ a ∈ creationTargets es' := by
  unfold creationTargets
  rw [List.filterMap_append, List.mem_append]

@[simp] theorem mem_runners_append {a : Address} {es es' : List Entry} :
    a ∈ runners (es ++ es') ↔ a ∈ runners es ∨ a ∈ runners es' := by
  unfold runners
  rw [List.filterMap_append, List.mem_append]

namespace Ledger

variable {β : Type} [Store β]

/-- The account has the same nonce, code and storage. -/
structure Keeps (l l' : Ledger β) (a : Address) : Prop where
  nonce : l'.nonce a = l.nonce a
  code : l'.code a = l.code a
  storage : ∀ i, l'.storage a i = l.storage a i

namespace Keeps

variable {l l' l'' : Ledger β} {a b target : Address} {v : Quantity}

theorem refl (l : Ledger β) (a : Address) : l.Keeps l a := ⟨rfl, rfl, fun _ => rfl⟩

theorem trans (h : l.Keeps l' a) (h' : l'.Keeps l'' a) : l.Keeps l'' a :=
  ⟨h'.nonce.trans h.nonce, h'.code.trans h.code, fun i => (h'.storage i).trans (h.storage i)⟩

theorem nonce_le (h : l.Keeps l' a) : l.nonce a ≤ l'.nonce a := by
  rw [h.nonce]
  exact Nat.le_refl _

/-! Payments move balances only. -/

theorem setBalance (l : Ledger β) (b : Address) (v : Quantity) (a : Address) :
    l.Keeps (l.setBalance b v) a := ⟨rfl, rfl, fun _ => rfl⟩

theorem of_debit (h : l.debit b v = .ok l') (a : Address) : l.Keeps l' a := by
  obtain ⟨-, rfl⟩ := eq_of_debit h
  exact setBalance l b _ a

theorem of_transfer (h : l.transfer b target v = .ok l') (a : Address) : l.Keeps l' a := by
  obtain ⟨paid, hd, rfl⟩ := eq_of_transfer h
  exact (of_debit hd a).trans (setBalance paid target _ a)

theorem push (l : Ledger β) (a : Address) : l.Keeps l.push a :=
  ⟨l.nonce_push a, l.code_push a, l.storage_push a⟩

theorem pop_commit (l : Ledger β) (a : Address) : l.Keeps (l.pop .commit) a :=
  ⟨l.nonce_pop_commit a, l.code_pop_commit a, l.storage_pop_commit a⟩

/-! Other writes leave all accounts but one alone. -/

theorem setNonce (l : Ledger β) (n : Quantity) (h : a ≠ b) : l.Keeps (l.setNonce b n) a := by
  refine ⟨?_, rfl, fun _ => rfl⟩
  rw [nonce_setNonce, if_neg h.symm]

theorem setCode (l : Ledger β) (code : Bytes) (h : a ≠ b) : l.Keeps (l.setCode b code) a := by
  refine ⟨rfl, ?_, fun _ => rfl⟩
  rw [code_setCode, if_neg h.symm]

theorem setStorage (l : Ledger β) (i v : Word) (h : a ≠ b) : l.Keeps (l.setStorage b i v) a := by
  refine ⟨rfl, rfl, fun j => ?_⟩
  rw [storage_setStorage, if_neg fun hb => h hb.1.symm]

theorem wipeStorage (l : Ledger β) (h : a ≠ b) : l.Keeps (l.wipeStorage b) a := by
  refine ⟨rfl, rfl, fun i => ?_⟩
  rw [storage_wipeStorage, if_neg h.symm]

theorem delete (l : Ledger β) (h : a ≠ b) : l.Keeps (l.delete b) a := by
  refine ⟨?_, ?_, fun i => ?_⟩
  · rw [nonce_delete, if_neg h.symm]
  · rw [code_delete, if_neg h.symm]
  · rw [storage_delete, if_neg h.symm]

end Keeps

/-- All that is read of the account is the same. -/
structure Spares (l l' : Ledger β) (a : Address) : Prop extends Keeps l l' a where
  balance : l'.balance a = l.balance a
  present : l'.present a = l.present a

namespace Spares

variable {l l' l'' : Ledger β} {a b : Address}

theorem refl (l : Ledger β) (a : Address) : l.Spares l a := ⟨.refl l a, rfl, rfl⟩

theorem trans (h : l.Spares l' a) (h' : l'.Spares l'' a) : l.Spares l'' a :=
  ⟨h.toKeeps.trans h'.toKeeps, h'.balance.trans h.balance, h'.present.trans h.present⟩

theorem delete (l : Ledger β) (h : a ≠ b) : l.Spares (l.delete b) a where
  toKeeps := .delete l h
  balance := by rw [balance_delete, if_neg h.symm]
  present := by rw [present_delete, if_neg h.symm]

/-- Deleting accounts leaves all others alone. -/
theorem deleteAll (condemned : Std.ExtTreeSet Address) (l : Ledger β) (h : a ∉ condemned) :
    l.Spares (condemned.foldl .delete l) a := by
  refine deleteAll_induction (P := fun l' => l.Spares l' a) ?_ (refl l a)
  intro l' b hb hl
  exact hl.trans (delete l' fun hab => h (hab ▸ hb))

end Spares

theorem nonce_le_bumpNonce (l : Ledger β) (a b : Address) :
    l.nonce b ≤ (l.bumpNonce a).nonce b := by
  unfold bumpNonce
  rw [nonce_setNonce]
  by_cases h : a = b
  · subst h
    have hm := (l.nonce a).le_most
    rw [if_pos rfl, Quantity.le_def, Quantity.toNat_add, Quantity.toNat_one]
    omega
  · rw [if_neg h]
    exact Nat.le_refl _

end Ledger

namespace World

variable {β : Type} [Store β]

/-- From `w` to `w'` the diary grew by `es`, and of all accounts but `own` only those for
which code ran or at which a creation was aimed have changed. -/
structure Footprint (own : List Address) (w w' : World β) (es : List Entry) : Prop where
  wrote : w.Wrote w' es
  nonce_le : ∀ a ∉ creationTargets es, w.ledger.nonce a ≤ w'.ledger.nonce a
  keeps : ∀ a ∉ own, a ∉ creationTargets es → a ∉ runners es → w.ledger.Keeps w'.ledger a

namespace Footprint

variable {own own' : List Address} {w w' w'' : World β} {es es' : List Entry}

/-- What leaves all accounts alone but those at which creations were aimed. -/
theorem of_keeps (hw : w.Wrote w' es)
    (h : ∀ a ∉ creationTargets es, w.ledger.Keeps w'.ledger a) : w.Footprint own w' es :=
  ⟨hw, fun a ha => (h a ha).nonce_le, fun a _ ha _ => h a ha⟩

theorem of_ledger_eq (hw : w.Wrote w' es) (h : w'.ledger = w.ledger) : w.Footprint own w' es :=
  .of_keeps hw fun a _ => h.symm ▸ .refl w.ledger a

theorem trans (h : w.Footprint own w' es) (h' : w'.Footprint own w'' es') :
    w.Footprint own w'' (es ++ es') where
  wrote := h.wrote.trans h'.wrote
  nonce_le := by
    intro a ha
    rw [mem_creationTargets_append, not_or] at ha
    exact Nat.le_trans (h.nonce_le a ha.1) (h'.nonce_le a ha.2)
  keeps := by
    intro a ho ht hr
    rw [mem_creationTargets_append, not_or] at ht
    rw [mem_runners_append, not_or] at hr
    exact (h.keeps a ho ht.1 hr.1).trans (h'.keeps a ho ht.2 hr.2)

theorem mono (h : w.Footprint own w' es) (ho : own ⊆ own') : w.Footprint own' w' es :=
  ⟨h.wrote, h.nonce_le, fun a ha => h.keeps a fun hin => ha (ho hin)⟩

/-- Accounts for which code ran need not be set apart. -/
theorem absorb (h : w.Footprint own w' es) (ho : own ⊆ runners es) : w.Footprint [] w' es :=
  ⟨h.wrote, h.nonce_le, fun a _ ht hr => h.keeps a (fun hin => hr (ho hin)) ht hr⟩

end Footprint

/-- What a frame in `c` may do: it leaves other accounts alone, and condemns only its own
account and those for which code ran in nested messages. -/
def FrameFootprint (c : Context) (s : Substate) (w : World β) (s' : Substate) (w' : World β) :
    Prop :=
  ∃ es, w.Footprint [c.address] w' es ∧
    ∀ a ∈ s'.condemned, a ∈ s.condemned ∨ a = c.address ∨ a ∈ runners es

/-- The same for a message. -/
def MessageFootprint (w : World β) (o : Outcome) (w' : World β) : Prop :=
  ∃ es, w.Footprint [] w' es ∧ ∀ a ∈ o.substate.condemned, a ∈ runners es

variable {c : Context} {s s₁ s₂ : Substate} {w w₁ w₂ : World β} {o : Outcome} {es : List Entry}

theorem FrameFootprint.of_ledger_eq (hw : w.Wrote w₁ es) (h : w₁.ledger = w.ledger) :
    FrameFootprint c s w s w₁ := ⟨es, .of_ledger_eq hw h, fun _ ha => .inl ha⟩

theorem FrameFootprint.trans (h : FrameFootprint c s w s₁ w₁)
    (h' : FrameFootprint c s₁ w₁ s₂ w₂) : FrameFootprint c s w s₂ w₂ := by
  obtain ⟨es, hf, hs⟩ := h
  obtain ⟨es', hf', hs'⟩ := h'
  refine ⟨es ++ es', hf.trans hf', ?_⟩
  intro a ha
  rw [mem_runners_append]
  rcases hs' a ha with ha | ha | ha
  · rcases hs a ha with ha | ha | ha
    · exact .inl ha
    · exact .inr (.inl ha)
    · exact .inr (.inr (.inl ha))
  · exact .inr (.inl ha)
  · exact .inr (.inr (.inr ha))

theorem MessageFootprint.frame (h : MessageFootprint w o w₁) :
    FrameFootprint c s w (s.absorb o) w₁ := by
  obtain ⟨es, hf, ho⟩ := h
  refine ⟨es, hf.mono (List.nil_subset _), ?_⟩
  intro a ha
  by_cases hx : o.exception = none
  · rw [Substate.absorb_of_none hx] at ha
    have hunion : a ∈ s.condemned ∨ a ∈ o.substate.condemned :=
      Std.ExtTreeSet.mem_union_iff.mp ha
    exact hunion.imp_right fun ha => .inr (ho a ha)
  · rw [Substate.absorb_of_exception hx] at ha
    exact .inl ha

/-- A message that is committed, whose code ran for `a`. -/
theorem Footprint.committed {a : Address} (h : w.Footprint [a] w₁ es) (ha : a ∈ runners es)
    (d : Nat) (ho : o.exception = none) (hs : ∀ b ∈ o.substate.condemned, b ∈ runners es) :
    MessageFootprint w o (w₁.closed d o) := by
  obtain ⟨tail, hw, -⟩ := w₁.wrote_closed d o
  have hclosed : w₁.Footprint [a] (w₁.closed d o) tail := by
    refine .of_keeps hw fun b _ => ?_
    rw [ledger_closed_of_none ho]
    exact .pop_commit w₁.ledger b
  refine ⟨es ++ tail, (h.trans hclosed).absorb ?_, ?_⟩
  · intro b hb
    cases List.mem_singleton.mp hb
    exact mem_runners_append.mpr (.inl ha)
  · intro b hb
    exact mem_runners_append.mpr (.inl (hs b hb))

/-- A message without side effects. -/
theorem MessageFootprint.of_empty (hf : w.Footprint [] w₁ es) (ho : o.substate = ∅) :
    MessageFootprint w o w₁ := by
  refine ⟨es, hf, ?_⟩
  intro a ha
  rw [ho] at ha
  exact absurd ha Std.ExtTreeSet.not_mem_empty

end World

namespace Machine

variable {β : Type} [Store β]

/-- A creation clears the place it is aimed at and no other. -/
theorem keeps_openFor (m : Machine) {k : Message} {target a : Address}
    (h : k.isCreation → a ≠ target) (l : Ledger β) : l.Keeps (m.openFor k target l) a := by
  unfold openFor
  split
  · next hk =>
    have hcleared : l.Keeps ((l.push.wipeStorage target).setCode target []) a :=
      (Ledger.Keeps.push l a).trans
        ((Ledger.Keeps.wipeStorage l.push (h hk)).trans (.setCode _ [] (h hk)))
    unfold prepare
    dsimp only
    split
    · exact hcleared.trans (.setNonce _ 1 (h hk))
    · exact hcleared
  · exact .push l a

theorem ne_of_not_mem_announced {k : Message} {d : Nat} {c : Context} {r : Remark} {a : Address}
    (h : a ∉ creationTargets [.event (k.event d c), .remark r]) : k.isCreation → a ≠ c.address := by
  cases k with
  | call => exact fun hk => absurd hk Bool.false_ne_true
  | create =>
    rintro - rfl
    exact h List.mem_cons_self

theorem Received.footprint {m : Machine} {d : Nat} {t : Terms} {k : Message} {w w' : World β}
    {r : Admission} (h : m.Received d t k w r w') : ∃ es, w.Footprint [] w' es := by
  refine ⟨_, .of_keeps h.wrote_announce ?_⟩
  intro a ha
  have hpaid : ∀ l, m.paid t k w.ledger = .ok l → w.ledger.Keeps l a := fun l hl =>
    (m.keeps_openFor (ne_of_not_mem_announced ha) w.ledger).trans (.of_transfer hl a)
  cases h with
  | unpaid => exact .refl _ _
  | @idle l hp => exact (hpaid l hp).trans (.pop_commit l a)
  | @waiting l hp => exact hpaid l hp

theorem keeps_leftOver (k : Message) (l : Ledger β) (a : Address) : l.Keeps (k.leftOver l) a := by
  cases k with
  | call c => exact .refl l a
  | create c =>
    unfold Message.leftOver
    dsimp only
    split
    · exact .refl l a
    · next h => exact .of_transfer h a

theorem Deposited.footprint {m : Machine} {p : Pending} {h h' : Halt} {dep : Deposit}
    {w w' : World β} (hd : m.Deposited p h w h' dep w') :
    ∃ es, w.Footprint [p.context.address] w' es := by
  obtain ⟨es, hw, -⟩ := hd.wrote
  refine ⟨es, ?_⟩
  cases hd with
  | nothing => exact .of_ledger_eq hw rfl
  | failed => exact .of_ledger_eq hw rfl
  | stored =>
    refine ⟨hw, fun a _ => Nat.le_refl _, fun a ha _ _ => .setCode _ _ ?_⟩
    exact fun he => ha (List.mem_singleton.mpr he)

variable (m : Machine) (observer : Observer)

theorem footprint_act (d : Nat) (c : Context) (e : Effect) (s : Substate) (w : World β) :
    World.FrameFootprint c s w ((m.frame d c observer).act e s w).1
      ((m.frame d c observer).act e s w).2 := by
  obtain ⟨es, hw, -⟩ := (m.frame d c observer).wrote_act e s w
  cases e with
  | setStorage i v =>
    refine ⟨_, ⟨hw, fun a _ => Nat.le_refl _, fun a ha _ _ => .setStorage _ i v ?_⟩,
      fun a ha => .inl ha⟩
    exact fun he => ha (List.mem_singleton.mpr he)
  | log topics data => exact .of_ledger_eq hw rfl
  | refund amount => exact .of_ledger_eq hw rfl
  | selfDestruct b =>
    refine ⟨_, .of_keeps hw fun a _ => ?_, ?_⟩
    · exact (Ledger.Keeps.setBalance _ _ _ a).trans (.setBalance _ _ _ a)
    · intro a ha
      have hins : (m.frame d c observer).context.address = a ∨ a ∈ s.condemned := by
        simpa [Frame.act, Substate.condemn, Std.ExtTreeSet.mem_insert] using ha
      exact hins.symm.imp_right fun ha => .inl ha.symm

theorem steady_footprint : m.Steady observer
    (fun _ c s (w : World β) s' w' => World.FrameFootprint c s w s' w')
    (fun _ _ _ w o w' => World.MessageFootprint w o w') where
  refl := .of_ledger_eq (.refl _) rfl
  trans := World.FrameFootprint.trans
  observe := by
    intro d c i s w
    obtain ⟨es, hw, -⟩ := (m.frame d c observer).wrote_observe i w
    exact .of_ledger_eq hw ((m.frame d c observer).ledger_observe i w)
  act := m.footprint_act observer _ _ _ _ _
  note := .of_ledger_eq (.write _ _) rfl
  call hm := hm.frame
  create := by
    intro d c endowment gas initCode s w o w₁ hm
    -- the creator's nonce grows before the message
    have hbump : World.FrameFootprint c s w s (w.edit (·.bumpNonce c.address)) := by
      refine ⟨[], ⟨.of_diary_eq rfl, fun a _ => w.ledger.nonce_le_bumpNonce _ a,
        fun a ha _ _ => .setNonce _ _ ?_⟩, fun a ha => .inl ha⟩
      exact fun he => ha (List.mem_singleton.mpr he)
    exact hbump.trans hm.frame
  refuse := by
    intro d t k w hd
    obtain ⟨es, hw, -⟩ := wrote_refuse d t k w
    refine .of_empty (.of_keeps hw fun a _ => ?_) rfl
    rw [ledger_refuse]
    exact keeps_leftOver k w.ledger a
  done := by
    intro d t k w o w' hd hr
    obtain ⟨es, hf⟩ := hr.footprint
    refine .of_empty hf ?_
    cases hr <;> rfl
  close := by
    intro d t k w p w₁ h s w₂ h' dep w₃ hd hr hp hf hs hdep
    let v := m.invocation d p
    obtain ⟨announced, hr⟩ := hr.footprint
    obtain ⟨es, hf, hcondemned⟩ := hf
    obtain ⟨kept, hdep'⟩ := hdep.footprint
    have hbegun : w.Footprint [p.context.address] (w₁.write (.enter v)) (announced ++ [.enter v]) :=
      (hr.mono (List.nil_subset _)).trans (.of_ledger_eq (.write w₁ (.enter v)) rfl)
    have hran : w.Footprint [p.context.address] w₃ (announced ++ [.enter v] ++ (es ++ kept)) :=
      hbegun.trans (hf.trans hdep')
    have hrunner : p.context.address ∈ runners (announced ++ [.enter v] ++ (es ++ kept)) := by
      simp only [mem_runners_append]
      exact .inl (.inr List.mem_cons_self)
    by_cases ho : (h'.ended p dep s).exception = none
    · refine hran.committed hrunner d ho ?_
      intro a ha
      rw [Halt.exception_ended] at ho
      rw [Halt.ended_of_none ho] at ha
      rcases hcondemned a ha with ha | rfl | ha
      · exact absurd ha Std.ExtTreeSet.not_mem_empty
      · exact hrunner
      · simp only [mem_runners_append]
        exact .inr (.inl ha)
    · obtain ⟨tail, hw, -⟩ := w₃.wrote_closed d (h'.ended p dep s)
      refine .of_empty (.of_ledger_eq (hran.wrote.trans hw) ?_) ?_
      · rw [World.ledger_closed_of_some ho, (hs.trans hdep.sameBelow).pop_revert_of_push]
      · rw [Halt.exception_ended] at ho
        exact Halt.substate_ended_of_some ho

end Machine

/-! Whole tasks. -/

/-- Who sends a transaction; a bare message has no sender of its own. -/
def Task.sender : Task → Option Address
  | .transaction t => t.sender
  | .message _ _ => none

namespace Execution

variable {β : Type} [Store β]

theorem wrote_conclude (x : Execution) (a : Accepted) (o : Outcome) (refunded : Quantity)
    (w : World β) :
    w.Wrote (x.conclude a o refunded w).2 [.remark (.finalized o.gas refunded o.exception)] := by
  unfold conclude
  dsimp only
  split
  · exact .write (w.edit _) _
  · exact .write ((w.edit _).edit _) _

/-- Finalization leaves alone what it does not delete, once the fees are paid. -/
theorem spares_conclude (x : Execution) (a : Accepted) (o : Outcome) (refunded : Quantity)
    (w : World β) {b : Address} (h : o.exception = none → b ∉ o.substate.condemned) :
    (payFees x.machine a o.gas w.ledger).Spares (x.conclude a o refunded w).2.ledger b := by
  rw [x.ledger_conclude]
  split
  · next ho => exact .deleteAll _ _ (h ho)
  · exact .refl _ b

theorem keeps_conclude (x : Execution) (a : Accepted) (o : Outcome) (refunded : Quantity)
    (w : World β) {b : Address} (h : o.exception = none → b ∉ o.substate.condemned) :
    w.ledger.Keeps (x.conclude a o refunded w).2.ledger b := by
  have hpaid : w.ledger.Keeps (payFees x.machine a o.gas w.ledger) b :=
    (Ledger.Keeps.setBalance _ _ _ b).trans (.setBalance _ _ _ b)
  exact hpaid.trans (x.spares_conclude a o refunded w h).toKeeps

theorem wrote_charge (a : Accepted) (w : World β) : w.Wrote (a.charge w) [.event a.event] :=
  World.Wrote.write _ _

/-- But for the sender's nonce, a task changes only accounts for which code ran and those
at which creations were aimed. -/
theorem Completed.isolated {x x' : Execution} (hi : x.machine.interpreter.Confined)
    {observer : Observer} {task : Task} {w w' : World β} {r : Except Error Unit}
    (h : x.Completed observer w task r x' w') {b : Address} (hr : b ∉ runners (w'.since w))
    (ht : b ∉ creationTargets (w'.since w)) :
    w'.ledger.code b = w.ledger.code b ∧
      (∀ i, w'.ledger.storage b i = w.ledger.storage b i) ∧
      (task.sender ≠ some b → w'.ledger.nonce b = w.ledger.nonce b) := by
  have hc := (x.machine.steady_footprint (β := β) observer).conduct
  cases h with
  | refused =>
    rw [World.ledger_remarks]
    exact ⟨rfl, fun _ => rfl, fun _ => rfl⟩
  | message path hs =>
    obtain ⟨es, hf, -⟩ := hc.of_send hi hs
    rw [hf.wrote.since_eq] at hr ht
    have hk := hf.keeps b List.not_mem_nil ht hr
    exact ⟨hk.code, hk.storage, fun _ => hk.nonce⟩
  | @finalized a o o' refunded w₁ path ha hs hd =>
    obtain ⟨es, hf, hcondemned⟩ := hc.of_send hi hs
    rw [((wrote_charge a w).trans (hf.wrote.trans (wrote_conclude _ _ _ _ _))).since_eq] at hr ht
    simp only [mem_runners_append, mem_creationTargets_append, not_or] at hr ht
    -- an account that was condemned had code running for it
    have hspared : b ∉ o'.substate.condemned := by
      rw [hd.condemned]
      exact fun hb => hr.2.1 (hcondemned b hb)
    have hk := (hf.keeps b List.not_mem_nil ht.2.1 hr.2.1).trans
      (keeps_conclude { x with phase := .executed (some a) o, path } a o' refunded w₁
        fun _ => hspared)
    refine ⟨hk.code, hk.storage, fun hne => hk.nonce.trans ?_⟩
    have hother : a.sender ≠ b := fun he => hne (he ▸ ha.sender)
    exact (Ledger.Keeps.setNonce w.ledger _ hother.symm).nonce

/-- A task that is carried out to its end leaves code and storage of an account alone,
whoever was paid or lent its code, unless code ran for the account or a creation was aimed
at it; and its nonce too, unless it sent the transaction. -/
theorem accounts_are_isolated (x : Execution) (hx : x.phase = .created)
    (hi : x.machine.interpreter.Confined) (task : Task) (observer : Observer) (w : World β) :
    (1 ≤ x.machine.rules.refundQuotient →
      ∃ r x' w', x.complete task observer w = .ok (r, x', w')) ∧
    ∀ r x' w', x.complete task observer w = .ok (r, x', w') →
      ∀ a, a ∉ runners (w'.since w) → a ∉ creationTargets (w'.since w) →
        w'.ledger.code a = w.ledger.code a ∧
        (∀ i, w'.ledger.storage a i = w.ledger.storage a i) ∧
        (task.sender ≠ some a → w'.ledger.nonce a = w.ledger.nonce a) :=
  ⟨fun hq => complete_eq_ok hx hi hq task observer w,
    fun _ _ _ h _ hr ht => (completed hx hi h).isolated hi hr ht⟩

end Execution

/-- Account 8 gets five of account 7 and runs no code. -/
theorem payment_isolates_payee :
    ∃ x' w', (Execution.new (.plain .paying) 0).complete (.transaction .toSelf) .silent .plain =
        .ok (.ok (), x', w') ∧
      w'.ledger.balance 8 = 5 ∧ runners (w'.since .plain) = [7] ∧
      w'.ledger.code 8 = World.plain.ledger.code 8 ∧
      (∀ i, w'.ledger.storage 8 i = World.plain.ledger.storage 8 i) ∧
      w'.ledger.nonce 8 = World.plain.ledger.nonce 8 := by
  obtain ⟨hok, hkeeps⟩ := Execution.accounts_are_isolated (.new (.plain .paying) 0) rfl
    Interpreter.confined_paying (.transaction .toSelf) .silent .plain
  obtain ⟨r, x', w', h⟩ := hok (by decide)
  have hseen : ((Execution.new (.plain .paying) 0).complete (.transaction .toSelf) .silent
      World.plain).map (fun done => (done.1, done.2.2.ledger.balance 8,
        runners (done.2.2.since .plain), creationTargets (done.2.2.since .plain))) =
      .ok (.ok (), 5, [7], []) := by decide +kernel
  rw [h] at hseen
  have hfour := Except.ok.inj hseen
  simp only [Prod.mk.injEq] at hfour
  obtain ⟨rfl, hbalance, hrunners, htargets⟩ := hfour
  obtain ⟨hcode, hstorage, hnonce⟩ := hkeeps _ x' w' h 8
    (by rw [hrunners]; decide) (by rw [htargets]; exact List.not_mem_nil)
  exact ⟨x', w', h, hbalance, hrunners, hcode, hstorage, hnonce (by decide)⟩

end Transact
