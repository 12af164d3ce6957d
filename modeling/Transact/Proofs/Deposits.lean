import Transact.Proofs.Coherence
import Transact.Proofs.Footprint

/-!
What becomes of the code that a creation returns. The code of an account changes only
where a creation is aimed, and never grows over the limit; so the place of a creation holds
what its own init code returned, or nothing. Main statement: `code_deposits`.
-/

namespace Transact

/-! The code of the accounts during a run. -/

/-- From `w` to `w'` the diary grew by `es`, the code changed at most where creations
were aimed, and it did not outgrow the limit anywhere. -/
structure World.Coded {β : Type} [Store β] (m : Machine) (w w' : World β) (es : List Entry) :
    Prop where
  wrote : w.Wrote w' es
  code : ∀ a ∉ creationTargets es, w'.ledger.code a = w.ledger.code a
  fits : ∀ a, m.tooLarge (w.ledger.code a).length = false →
    m.tooLarge (w'.ledger.code a).length = false

namespace World.Coded

variable {β : Type} [Store β] {m : Machine} {w w' w'' : World β} {es es' : List Entry}

theorem of_code_eq (hw : w.Wrote w' es) (h : ∀ a, w'.ledger.code a = w.ledger.code a) :
    w.Coded m w' es := by
  refine ⟨hw, fun a _ => h a, fun a hf => ?_⟩
  rw [h]
  exact hf

theorem trans (h : w.Coded m w' es) (h' : w'.Coded m w'' es') : w.Coded m w'' (es ++ es') where
  wrote := h.wrote.trans h'.wrote
  code := by
    intro a ha
    rw [mem_creationTargets_append, not_or] at ha
    exact (h'.code a ha.2).trans (h.code a ha.1)
  fits a hf := h'.fits a (h.fits a hf)

end World.Coded

namespace Machine

variable {β : Type} {m : Machine}

theorem tooLarge_nil : m.tooLarge ([] : Bytes).length = false := by
  unfold tooLarge
  cases m.rules.codeSizeLimit with
  | none => rfl
  | some n => exact decide_eq_false (Nat.not_lt_zero n)

theorem length_le_of_fits {code : Bytes} (h : m.tooLarge code.length = false) :
    ∀ n, m.rules.codeSizeLimit = some n → code.length ≤ n := by
  intro n hn
  unfold tooLarge at h
  rw [hn] at h
  exact Nat.not_lt.mp (of_decide_eq_false h)

variable [Store β]

/-- A creation begins with no code in its place. -/
theorem code_of_paid {t : Terms} {k : Message} {l l' : Ledger β} (h : m.paid t k l = .ok l')
    (a : Address) :
    l'.code a = if k.isCreation ∧ (k.context t l).address = a then [] else l.code a := by
  have hopen : (m.openFor k (k.context t l).address l).code a =
      if k.isCreation ∧ (k.context t l).address = a then [] else l.code a := by
    unfold openFor
    cases k.isCreation with
    | false => simp
    | true =>
      unfold prepare
      simp only [if_true, true_and]
      split <;> simp [Ledger.code_setCode]
  rw [← hopen]
  exact (Ledger.Keeps.of_transfer h a).code

theorem Received.coded {d : Nat} {t : Terms} {k : Message} {w w' : World β} {r : Admission}
    (h : m.Received d t k w r w') :
    w.Coded m w' [.event (k.event d (k.context t w.ledger)),
      .remark (k.opened d (k.context t w.ledger))] := by
  have hcode : (∀ a, w'.ledger.code a = w.ledger.code a) ∨
      ∃ l, m.paid t k w.ledger = .ok l ∧ ∀ a, w'.ledger.code a = l.code a := by
    cases h with
    | unpaid => exact .inl fun _ => rfl
    | @idle l hp => exact .inr ⟨l, hp, l.code_pop_commit⟩
    | @waiting l hp => exact .inr ⟨l, hp, fun _ => rfl⟩
  rcases hcode with hsame | ⟨l, hp, hsame⟩
  · exact .of_code_eq h.wrote_announce hsame
  · refine ⟨h.wrote_announce, ?_, ?_⟩
    · intro a ha
      have hne := ne_of_not_mem_announced ha
      rw [hsame, code_of_paid hp, if_neg fun hk => hne hk.1 hk.2.symm]
    · intro a hf
      rw [hsame, code_of_paid hp]
      split
      · exact tooLarge_nil
      · exact hf

/-- Code that halted is stored in its own place. -/
theorem code_of_deposited {p : Pending} {h h' : Halt} {dep : Deposit} {w w' : World β}
    (hd : m.Deposited p h w h' dep w') {a : Address} (ha : p.isCreation → a ≠ p.context.address) :
    w'.ledger.code a = w.ledger.code a := by
  cases hd with
  | nothing => rfl
  | failed => rfl
  | stored hp => exact (Ledger.code_setCode _ _ _ _).trans (if_neg (ha hp).symm)

theorem fits_of_deposited {p : Pending} {h h' : Halt} {dep : Deposit} {w w' : World β}
    (hd : m.Deposited p h w h' dep w') {a : Address}
    (hf : m.tooLarge (w.ledger.code a).length = false) :
    m.tooLarge (w'.ledger.code a).length = false := by
  cases hd with
  | nothing => exact hf
  | failed => exact hf
  | stored hp he hc =>
    have hcode : (w.edit (·.setCode p.context.address h.output)).ledger.code a =
        if p.context.address = a then h.output else w.ledger.code a := Ledger.code_setCode _ _ _ _
    rw [hcode]
    split
    · exact Bool.eq_false_iff.mpr hc.1
    · exact hf

variable (m) (observer : Observer)

theorem coded_act (d : Nat) (c : Context) (e : Effect) (s : Substate) (w : World β) :
    ∃ es, w.Coded m ((m.frame d c observer).act e s w).2 es := by
  obtain ⟨es, hw, -⟩ := (m.frame d c observer).wrote_act e s w
  refine ⟨_, .of_code_eq hw fun a => ?_⟩
  cases e <;> rfl

theorem steady_coded : m.Steady observer
    (fun _ _ _ (w : World β) _ w' => ∃ es, w.Coded m w' es)
    (fun _ _ _ w _ w' => ∃ es, w.Coded m w' es) where
  refl := ⟨[], .of_code_eq (.refl _) fun _ => rfl⟩
  trans := by
    rintro d c s w s₁ w₁ s₂ w₂ ⟨es, h⟩ ⟨es', h'⟩
    exact ⟨es ++ es', h.trans h'⟩
  observe := by
    intro d c i s w
    obtain ⟨es, hw, -⟩ := (m.frame d c observer).wrote_observe i w
    refine ⟨es, .of_code_eq hw fun a => ?_⟩
    rw [(m.frame d c observer).ledger_observe]
  act := m.coded_act observer _ _ _ _ _
  note := ⟨_, .of_code_eq (.write _ _) fun _ => rfl⟩
  call hm := hm
  create := by
    rintro d c endowment gas initCode s w o w₁ ⟨es, hm⟩
    have hbump : w.Coded m (w.edit (·.bumpNonce c.address)) [] :=
      .of_code_eq (.of_diary_eq rfl) fun _ => rfl
    exact ⟨_, hbump.trans hm⟩
  refuse := by
    intro d t k w hd
    obtain ⟨es, hw, -⟩ := wrote_refuse d t k w
    refine ⟨es, .of_code_eq hw fun a => ?_⟩
    rw [ledger_refuse]
    exact (keeps_leftOver k w.ledger a).code
  done hd hr := ⟨_, hr.coded⟩
  close := by
    rintro d t k w p w₁ h s w₂ h' dep w₃ hd hr - ⟨es, hf⟩ hs hdep
    have hran := (hr.coded.trans (.of_code_eq (.write w₁ (.enter (m.invocation d p)))
      fun _ => rfl)).trans hf
    obtain ⟨kept, hk, -⟩ := hdep.wrote
    obtain ⟨tail, ht, -⟩ := w₃.wrote_closed d (h'.ended p dep s)
    refine ⟨_, (hran.wrote.trans hk).trans ht, ?_, ?_⟩
    · intro a ha
      simp only [mem_creationTargets_append, not_or] at ha
      obtain ⟨⟨⟨⟨hannounced, henter⟩, hnested⟩, -⟩, -⟩ := ha
      have hplace : p.isCreation → a ≠ p.context.address := by
        rw [hr.isCreation_of_pending, hr.context_of_pending]
        exact ne_of_not_mem_announced hannounced
      by_cases ho : (h'.ended p dep s).exception = none
      · rw [World.ledger_closed_of_none ho, Ledger.code_pop_commit, code_of_deposited hdep hplace]
        refine hran.code a ?_
        simp only [mem_creationTargets_append, not_or]
        exact ⟨⟨hannounced, henter⟩, hnested⟩
      · rw [World.ledger_closed_of_some ho, (hs.trans hdep.sameBelow).pop_revert_of_push]
    · intro a hfits
      by_cases ho : (h'.ended p dep s).exception = none
      · rw [World.ledger_closed_of_none ho, Ledger.code_pop_commit]
        exact fits_of_deposited hdep (hran.fits a hfits)
      · rw [World.ledger_closed_of_some ho, (hs.trans hdep.sameBelow).pop_revert_of_push]
        exact hfits

/-! One creation. -/

/-- What is made of a creation at `target` whose init code halted well with `h`, having
written `es`: the outcome `o`, and the ledger `l'` that was `l` before the creation. -/
def Takes (target : Address) (h : Halt) (es : List Entry) (l : Ledger β) (o : Outcome)
    (l' : Ledger β) : Prop :=
  let size := h.output.length
  let cost := depositCost m.rules size
  if m.tooLarge size = false ∧ cost ≤ h.gasLeft.toNat then
    o.exception = none ∧ o.newAddress = some target ∧ l'.code target = h.output ∧
      o.gas.toNat = h.gasLeft.toNat - cost ∧ o.deposit = .success size h.gasLeft
  else
    o.deposit = .failed size h.gasLeft ∧
      if m.tooLarge size ∨ m.rules.failedDepositIsExceptional then
        o.exception = some .outOfGas ∧ o.gas = 0 ∧ o.output = [] ∧ o.newAddress = none ∧ l' = l
      else
        o.exception = none ∧ o.newAddress = some target ∧ o.gas = h.gasLeft ∧
          (target ∉ creationTargets es → l'.code target = [])

variable {m observer} {d : Nat} {t : Terms} {k : Message} {w w₁ : World β} {p : Pending}

/-- The size and the gas that a deposit tells of are what the init code left. -/
theorem deposit_of_takes {target : Address} {h : Halt} {es : List Entry} {l l' : Ledger β}
    {o : Outcome} (ht : m.Takes target h es l o l') :
    o.deposit.size = h.output.length ∧ o.deposit.gas = h.gasLeft := by
  unfold Takes at ht
  dsimp only at ht
  split at ht
  · rw [ht.2.2.2.2]
    exact ⟨rfl, rfl⟩
  · rw [ht.1]
    exact ⟨rfl, rfl⟩

theorem code_of_waiting (hr : m.Received d t k w (.pending p) w₁) (hp : p.isCreation) :
    w₁.ledger.code p.context.address = [] := by
  cases hr with
  | waiting hpaid => exact (code_of_paid hpaid _).trans (if_pos ⟨hp, rfl⟩)

/-- The deposit of init code that halted well, in a place where nothing was stored but by
creations aimed there. -/
theorem takes_of_deposited {h h' : Halt} {dep : Deposit} {w₂ w₃ : World β} {s : Substate}
    {es : List Entry} {l : Ledger β} (hp : p.isCreation) (hnone : h.exception = none)
    (hdep : m.Deposited p h w₂ h' dep w₃)
    (hreverted : (h'.ended p dep s).exception ≠ none →
      (w₃.closed d (h'.ended p dep s)).ledger = l)
    (hplace : p.context.address ∉ creationTargets es →
      w₂.ledger.code p.context.address = []) :
    m.Takes p.context.address h es l (h'.ended p dep s)
      (w₃.closed d (h'.ended p dep s)).ledger := by
  have haddress : p.newAddress = some p.context.address := if_pos hp
  unfold Takes
  dsimp only
  cases hdep with
  | nothing hnot =>
    rcases hnot with hcall | hsome
    · cases hp.symm.trans hcall
    · exact absurd hnone hsome
  | stored _ _ hfit =>
    have ho := Halt.ended_of_none (p := p) (d := .success h.output.length h.gasLeft) (s := s)
      (h := { h with gasLeft := h.gasLeft - .ofNat (depositCost m.rules h.output.length) }) hnone
    rw [if_pos ⟨Bool.eq_false_iff.mpr hfit.1, hfit.2⟩, World.ledger_closed_of_none (by rw [ho]), ho]
    have hcost : depositCost m.rules h.output.length ≤ Quantity.most :=
      Nat.le_trans hfit.2 h.gasLeft.le_most
    refine ⟨rfl, haddress, ?_, ?_, rfl⟩
    · rw [Ledger.code_pop_commit]
      exact (Ledger.code_setCode _ _ _ _).trans (if_pos rfl)
    · dsimp only
      rw [Quantity.toNat_sub, Quantity.toNat_ofNat, Nat.min_eq_left hcost]
  | failed _ _ hfail =>
    have hnot : ¬ (m.tooLarge h.output.length = false ∧
        depositCost m.rules h.output.length ≤ h.gasLeft.toNat) := by
      rintro ⟨hsmall, hpays⟩
      rcases hfail with hlarge | hlack
      · cases hsmall.symm.trans hlarge
      · exact Nat.not_lt.mpr hpays hlack
    rw [if_neg hnot]
    by_cases hx : m.tooLarge h.output.length ∨ m.rules.failedDepositIsExceptional
    · have hraised : (if m.tooLarge h.output.length || m.rules.failedDepositIsExceptional
          then some Exception.outOfGas else none) = some .outOfGas :=
        if_pos (by simpa using hx)
      rw [hraised] at hreverted ⊢
      rw [if_pos hx]
      exact ⟨rfl, rfl, rfl, rfl, rfl, hreverted nofun⟩
    · have hspared : (if m.tooLarge h.output.length || m.rules.failedDepositIsExceptional
          then some Exception.outOfGas else none) = none :=
        if_neg (by simpa using hx)
      rw [hspared, if_neg hx]
      refine ⟨rfl, rfl, haddress, rfl, fun hmem => ?_⟩
      rw [World.ledger_closed_of_none rfl, Ledger.code_pop_commit]
      exact hplace hmem

/-- Init code that halts well is run to an end, and what it returned is taken. -/
theorem takes_of_run (hi : m.interpreter.Confined)
    (hb : m.begin d t k w = (.pending p, w₁)) (hp : p.isCreation)
    (hnone : (m.play observer d p w₁).1.exception = none) :
    ∃ o w', m.run observer d p w₁ = (.closed o, w') ∧
      m.Takes p.context.address (m.play observer d p w₁).1 (w'.since w₁) w.ledger o w'.ledger := by
  obtain ⟨hd, hr⟩ := begin_eq_pending hb
  have hc := (m.steady_coded (β := β) observer).conduct
  obtain ⟨h, s, w₂, h', dep, w₃, hplay, ⟨es, hf⟩, hs, hdep, he⟩ :=
    hc.ran hi hd (hc.send hi (d + 1) p.context.terms) hr.sameBelow_of_pending
  refine ⟨_, _, he, ?_⟩
  rw [hplay] at hnone ⊢
  refine takes_of_deposited hp hnone hdep (fun ho => ?_) (fun hplace => ?_)
  · rw [World.ledger_closed_of_some ho, (hs.trans hdep.sameBelow).pop_revert_of_push]
  · obtain ⟨kept, hk, -⟩ := hdep.wrote
    obtain ⟨tail, ht, -⟩ := w₃.wrote_closed d (h'.ended p dep s)
    have hwrote := (((World.Wrote.write w₁ (.enter (m.invocation d p))).trans hf.wrote).trans
      hk).trans ht
    rw [hwrote.since_eq] at hplace
    simp only [mem_creationTargets_append, not_or] at hplace
    have hbegun : w₁.ledger.code p.context.address = [] := code_of_waiting hr hp
    exact (hf.code _ hplace.1.1.2).trans hbegun

/-- The place of a new contract has no code that is too large. -/
theorem fits_of_send (hi : m.interpreter.Confined) {w' : World β} {o : Outcome}
    (hs : m.send observer d t k w = (.closed o, w')) {a : Address}
    (ha : o.newAddress = some a) : m.tooLarge (w'.ledger.code a).length = false := by
  rcases hb : m.begin d t k w with ⟨o' | p, w₁⟩
  · rw [m.send_of_done observer hb] at hs
    cases hs
    obtain ⟨-, hr⟩ | ⟨-, hr⟩ := begin_eq_done hb
    · cases hr
      cases ha
    · cases hr with
      | unpaid => cases ha
      | @idle l hpaid =>
        have hcreation : k.isCreation ∧ (k.context t w.ledger).address = a := by
          unfold Outcome.untouched Message.pending Pending.newAddress at ha
          dsimp only at ha
          split at ha
          · next hk => exact ⟨hk, Option.some.inj ha⟩
          · cases ha
        have hcode : (l.pop .commit).code a = [] := by
          rw [Ledger.code_pop_commit, code_of_paid hpaid, if_pos hcreation]
        dsimp only
        rw [hcode]
        exact tooLarge_nil
  · rw [m.send_of_pending observer hb] at hs
    obtain ⟨hd, hr⟩ := begin_eq_pending hb
    have hc := (m.steady_coded (β := β) observer).conduct
    obtain ⟨h, s, w₂, h', dep, w₃, -, ⟨es, hf⟩, -, hdep, he⟩ :=
      hc.ran hi hd (hc.send hi (d + 1) p.context.terms) hr.sameBelow_of_pending
    cases he.symm.trans hs
    rw [Halt.newAddress_ended] at ha
    split at ha
    · next ho =>
      unfold Pending.newAddress at ha
      split at ha
      · next hp =>
        cases ha
        have hbegun : w₁.ledger.code p.context.address = [] := code_of_waiting hr hp
        have hfits : m.tooLarge (w₁.ledger.code p.context.address).length = false := by
          rw [hbegun]
          exact tooLarge_nil
        rw [World.ledger_closed_of_none (Halt.exception_ended.trans ho), Ledger.code_pop_commit]
        exact fits_of_deposited hdep (hf.fits _ hfits)
      · cases ha
    · cases ha

end Machine

namespace Execution

variable {β : Type} [Store β] {m : Machine} {depth : Nat} {parent : Substate} {w : World β}
  {turns : List Turn} {s s' : Scene β} {c : Command} {r : Reply}

/-- The message is done and `x` reports `o`. -/
def Reports (x : Execution) (o : Outcome) : Prop :=
  (∃ a o', x.phase = .executed a o' ∧ Keeps o o') ∨
    ∃ a final logs, x.phase = .finalized a final logs ∧ Keeps o final

theorem reports_acts {o : Outcome} (h : s.execution.Reports o) (ha : s.Acts c r s') :
    s'.execution.Reports o := by
  have hnext := concluding_acts (h.imp (fun ⟨a, o', hx, _⟩ => ⟨a, o', hx⟩)
    fun ⟨a, final, logs, hx, _⟩ => ⟨a, final, logs, hx⟩) ha
  unfold Reports at h ⊢
  generalize s.execution.phase = before, s'.execution.phase = after at h hnext ⊢
  cases hnext with
  | same => exact h
  | handed hx ho =>
    rcases h with ⟨a, o', hx', hk⟩ | ⟨a, final, logs, hx', -⟩
    · cases hx.symm.trans hx'
      exact .inl ⟨_, _, rfl, hk.trans (Passed.handed ho).keeps⟩
    · cases hx.symm.trans hx'
  | finalized hx hfinal =>
    rcases h with ⟨a, o', hx', hk⟩ | ⟨a, final, logs, hx', -⟩
    · cases hx.symm.trans hx'
      exact .inr ⟨_, _, _, rfl, hk.trans hfinal⟩
    · cases hx.symm.trans hx'

theorem Scene.Course.reports {t : Scene β} (h : s.Course turns t) {o : Outcome}
    (hs : s.execution.Reports o) : t.execution.Reports o := by
  induction h with
  | nil => exact hs
  | offer _ _ ih => exact ih
  | snoc _ hp ih => exact reports_acts ih (Scene.acts_of_perform hp)

theorem deposit_of_reports {x : Execution} {o : Outcome} (h : x.Reports o) (hx : x.Summarized)
    {z : Summary} (hz : x.summary = some z) : z.deposit = o.deposit := by
  obtain ⟨a, final, logs, hfinal, hmatches⟩ := hx z hz
  rcases h with ⟨a', o', hexecuted, -⟩ | ⟨a', final', logs', hfinal', hk⟩
  · cases hfinal.symm.trans hexecuted
  · cases hfinal.symm.trans hfinal'
    exact hmatches.deposit.trans hk.deposit

theorem perform_of_run {observer : Observer} {a : Option Accepted} {p : Pending} {o : Outcome}
    {w' : World β} (hx : s.execution.phase = .awaiting a p)
    (hr : s.execution.machine.run observer s.execution.depth p s.world = (.closed o, w')) :
    ∃ path, s.perform (.run observer) =
      .ok (.ok, ⟨{ s.execution with phase := .executed a o, path }, s.parent, w'⟩) := by
  unfold Scene.perform run
  dsimp only
  rw [hx]
  dsimp only
  rw [hr]
  exact ⟨_, rfl⟩

/-- The summary of a transaction whose message is done can be had. -/
theorem summary_of_executed {a : Accepted} {o : Outcome}
    (hx : s.execution.phase = .executed (some a) o)
    (hq : 1 ≤ s.execution.machine.rules.refundQuotient) (withPath : Bool) :
    ∃ t z t', s.Course [(.requestSummary withPath, .ok), (.finalize, .ok)] t ∧
      t.perform .takeSummary = .ok (.summary (some z), t') := by
  let asked : Scene β := ⟨s.execution.requestSummary withPath, s.parent, s.world⟩
  have hask : s.perform (.requestSummary withPath) = .ok (.ok, asked) := rfl
  obtain ⟨paid, refunded, -, hfin⟩ :=
    finalize_eq_ok (x := asked.execution) (a := a) (o := o) hx (.inl hq) asked.world
  let t : Scene β := ⟨(asked.execution.conclude a paid refunded asked.world).1, s.parent,
    (asked.execution.conclude a paid refunded asked.world).2⟩
  have hdone : asked.perform .finalize = .ok (.ok, t) := by
    unfold Scene.perform
    dsimp only
    rw [hfin]
    rfl
  have hz : t.execution.summary = some (asked.execution.summarize a paid refunded withPath) :=
    summary_conclude _ _ _ _ _
  refine ⟨t, asked.execution.summarize a paid refunded withPath,
    ⟨{ t.execution with summary := none }, t.parent, t.world⟩, .snoc (.snoc .nil hask) hdone, ?_⟩
  rw [← hz]
  rfl

/-- A creation whose init code was run between `s` and `s'`, and halted well with `h`: what
is made of it, and what any summary given out later tells. For a transaction there is one
to be had. -/
structure Deploys (m : Machine) (a : Option Accepted) (target : Address) (h : Halt)
    (l : Ledger β) (s s' : Scene β) : Prop where
  stage : s'.execution.stage = .executed
  takes : m.Takes target h (s'.world.since s.world) l s'.execution.outcome s'.world.ledger
  told : ∀ turns t z, s'.Course turns t → t.execution.summary = some z →
    z.deposit.size = h.output.length ∧ z.deposit.gas = h.gasLeft
  collected : a ≠ none → 1 ≤ m.rules.refundQuotient → ∀ withPath,
    ∃ t z t', s'.Course [(.requestSummary withPath, .ok), (.finalize, .ok)] t ∧
      t.perform .takeSummary = .ok (.summary (some z), t')

theorem deploys_of_awaiting (hi : m.interpreter.Confined) (observer : Observer)
    (h : Scene.Course ⟨.new m depth, parent, w⟩ turns s) {a : Option Accepted} {p : Pending}
    (hx : s.execution.phase = .awaiting a p) (hp : p.isCreation)
    (hnone : (m.play observer depth p s.world).1.exception = none) :
    ∃ task terms c w₀ s', TakenUp turns task ∧ Sends m w task a terms (.create c) w₀ ∧
      m.begin depth terms (.create c) w₀ = (.pending p, s.world) ∧
      s.perform (.run observer) = .ok (.ok, s') ∧
      Deploys m a p.context.address (m.play observer depth p s.world).1 w₀.ledger s s' := by
  obtain ⟨hm, hd, hs⟩ := h.stands hi
  have hz := h.summarized (summarized_new m depth)
  rw [hx] at hs
  obtain ⟨task, terms, message, w₀, ht, hsend, hb⟩ := hs.of_awaiting
  cases message with
  | call c =>
    obtain ⟨-, hr⟩ := Machine.begin_eq_pending hb
    cases hp.symm.trans hr.isCreation_of_pending
  | create c =>
    obtain ⟨o, w', hrun, htakes⟩ := Machine.takes_of_run hi hb hp hnone
    obtain ⟨path, hperform⟩ := perform_of_run hx (by rw [hm, hd]; exact hrun)
    refine ⟨task, terms, c, w₀, _, ht, hsend, hb, hperform, rfl, htakes, ?_, ?_⟩
    · intro turns' t z hcourse hsome
      have hreports := hcourse.reports (.inl ⟨a, o, rfl, .refl o⟩)
      have hsummarized := hcourse.summarized
        (summarized_acts hz (Scene.acts_of_perform hperform))
      rw [deposit_of_reports hreports hsummarized hsome]
      exact Machine.deposit_of_takes htakes
    · intro ha hq withPath
      cases a with
      | none => exact absurd rfl ha
      | some a => exact summary_of_executed rfl (by rw [← hm] at hq; exact hq) withPath

/-- What becomes of the code that init code returns when it halts well, be it that of a
message at any depth, of one that running code sends, of a bare creation or of a
transaction. And no successful creation leaves more code than the rules allow. -/
theorem code_deposits (hi : m.interpreter.Confined) (observer : Observer) :
    (∀ (depth : Nat) (terms : Terms) (c : Creation) (w w₁ : World β) (p : Pending),
      m.begin depth terms (.create c) w = (.pending p, w₁) →
      (m.play observer depth p w₁).1.exception = none →
      p.context.address = w.ledger.creationTarget c.creator ∧
      ∃ o w', m.send observer depth terms (.create c) w = (.closed o, w') ∧
        m.Takes p.context.address (m.play observer depth p w₁).1 (w'.since w₁) w.ledger o
          w'.ledger) ∧
    (∀ (depth : Nat) (context : Context) (s : Substate) (endowment gas : Quantity)
      (initCode : Bytes) (next : CreationReport → Program) (w : World β),
      ∃ o w', m.send observer (depth + 1) context.terms
          (.create ⟨context.address, endowment, gas, initCode⟩)
          (w.edit (·.bumpNonce context.address)) = (.closed o, w') ∧
        m.runCode observer depth context (.create endowment gas initCode next) s w =
          m.runCode observer depth context (next o.ofCreation) (s.absorb o) w') ∧
    (∀ (depth : Nat) (parent : Substate) (w : World β) (turns : List Turn) (s : Scene β)
      (a : Option Accepted) (p : Pending),
      Scene.Course ⟨.new m depth, parent, w⟩ turns s → s.execution.phase = .awaiting a p →
      p.isCreation → (m.play observer depth p s.world).1.exception = none →
      ∃ task terms c w₀ s', TakenUp turns task ∧ Sends m w task a terms (.create c) w₀ ∧
        m.begin depth terms (.create c) w₀ = (.pending p, s.world) ∧
        s.perform (.run observer) = .ok (.ok, s') ∧
        Deploys m a p.context.address (m.play observer depth p s.world).1 w₀.ledger s s') ∧
    (∀ (depth : Nat) (terms : Terms) (c : Creation) (w w' : World β) (o : Outcome),
      m.send observer depth terms (.create c) w = (.closed o, w') → o.exception = none →
      ∃ a, o.newAddress = some a ∧
        ∀ n, m.rules.codeSizeLimit = some n → (w'.ledger.code a).length ≤ n) ∧
    (∀ (depth : Nat) (parent : Substate) (w : World β) (turns : List Turn) (s : Scene β)
      (a : Address),
      Scene.Course ⟨.new m depth, parent, w⟩ turns s → s.execution.stage = .executed →
      s.execution.outcome.newAddress = some a →
      ∀ n, m.rules.codeSizeLimit = some n → (s.world.ledger.code a).length ≤ n) := by
  refine ⟨?_, ?_, ?_, ?_, ?_⟩
  · intro depth terms c w w₁ p hb hnone
    obtain ⟨-, hr⟩ := Machine.begin_eq_pending hb
    obtain ⟨o, w', hrun, htakes⟩ :=
      Machine.takes_of_run hi hb hr.isCreation_of_pending hnone
    exact ⟨congrArg Context.address hr.context_of_pending, o, w',
      (m.send_of_pending observer hb).trans hrun, htakes⟩
  · intro depth context s endowment gas initCode next w
    obtain ⟨o, w', hs, -⟩ := m.send_closed observer hi (depth + 1) context.terms
      (.create ⟨context.address, endowment, gas, initCode⟩) (w.edit (·.bumpNonce context.address))
    exact ⟨o, w', hs, Machine.runCode_create hs next⟩
  · intro depth parent w turns s a p h hx hp hnone
    exact deploys_of_awaiting hi observer h hx hp hnone
  · intro depth terms c w w' o hs ho
    obtain ⟨cause, -, hcoherent⟩ := Machine.coherent_of_send hs
    obtain ⟨a, ha⟩ := Option.isSome_iff_exists.mp (hcoherent.newAddress.mpr ⟨rfl, ho⟩)
    exact ⟨a, ha, Machine.length_le_of_fits (Machine.fits_of_send hi hs ha)⟩
  · intro depth parent w turns s a h hstage ha
    obtain ⟨-, -, hs⟩ := h.stands hi
    unfold stage at hstage
    cases hx : s.execution.phase with
    | executed b o =>
      rw [hx] at hs
      rw [outcome_of_executed hx] at ha
      obtain ⟨task, terms, message, w₀, observer, o', -, -, -, hsent, ho⟩ := hs.of_executed
      exact Machine.length_le_of_fits
        (Machine.fits_of_send hi hsent (ho.keeps.newAddress.symm.trans ha))
    | _ => simp [hx] at hstage

end Execution

/-- Init code that returns two bytes of code. -/
def Interpreter.deploying : Interpreter := fun v => .halt ⟨v.gas, [1, 2], none⟩

theorem Interpreter.confined_deploying : deploying.Confined := fun _ => trivial

/-- Account 7 makes a contract. The gas is for free. -/
def Transaction.deployment : Transaction := ⟨some 7, .create, 0, 60000, 0, 0, [9]⟩

open Execution in
theorem code_of_deployment :
    ∃ s s' : Scene State, Scene.Course ⟨.new (.plain .deploying) 0, ∅, .plain⟩
        [(.accept .deployment, .ok), (.execute, .done false)] s ∧
      s.perform (.run .silent) = .ok (.ok, s') ∧
      (∃ a, s'.execution.outcome.newAddress = some a ∧ s'.world.ledger.code a = [1, 2]) ∧
      s'.execution.outcome.gas.toNat = 6584 ∧
      ∀ withPath, ∃ t z t', s'.Course [(.requestSummary withPath, .ok), (.finalize, .ok)] t ∧
        t.perform .takeSummary = .ok (.summary (some z), t') ∧
        z.deposit.size = 2 ∧ z.deposit.gas.toNat = 6984 := by
  have h : ∃ (s : Scene State) (a : Option Accepted) (p : Pending),
      Scene.Course ⟨.new (.plain .deploying) 0, ∅, .plain⟩
        [(.accept .deployment, .ok), (.execute, .done false)] s ∧
      s.execution.phase = .awaiting a p ∧ a ≠ none ∧ p.isCreation ∧ p.gas.toNat = 6984 :=
    ⟨_, _, _, .snoc (.snoc .nil rfl) rfl, rfl, nofun, rfl, by decide⟩
  obtain ⟨s, a, p, hs, hx, ha, hp, hgas⟩ := h
  obtain ⟨-, -, hruns, -, -⟩ := code_deposits (β := State) (m := .plain .deploying)
    Interpreter.confined_deploying .silent
  obtain ⟨task, terms, c, w₀, s', -, -, -, hperform, hdeploys⟩ :=
    hruns 0 ∅ .plain _ s a p hs hx hp rfl
  have hhalt : ((Machine.plain .deploying).play .silent 0 p s.world).1 = ⟨p.gas, [1, 2], none⟩ :=
    rfl
  rw [hhalt] at hdeploys
  have htakes := hdeploys.takes
  have hpays : depositCost (Machine.plain .deploying).rules 2 ≤ p.gas.toNat := by
    rw [hgas]
    decide
  unfold Machine.Takes at htakes
  rw [if_pos ⟨rfl, hpays⟩] at htakes
  obtain ⟨-, hplace, hcode, hleft, -⟩ := htakes
  refine ⟨s, s', hs, hperform, ⟨_, hplace, hcode⟩, ?_, fun withPath => ?_⟩
  · rw [hleft, hgas]
    change 6984 - depositCost (Machine.plain .deploying).rules 2 = 6584
    decide
  · obtain ⟨t, z, t', hcourse, htaken⟩ := hdeploys.collected ha (by decide) withPath
    have hsummary : t.execution.summary = some z :=
      Reply.summary.inj (congrArg Prod.fst (Except.ok.inj htaken))
    obtain ⟨hsize, hdeposit⟩ := hdeploys.told _ t z hcourse hsummary
    exact ⟨t, z, t', hcourse, htaken, hsize, hdeposit ▸ hgas⟩

end Transact
