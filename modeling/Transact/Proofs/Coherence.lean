import Transact.Proofs.Courses
import Transact.Proofs.Rollback

/-!
What an execution reports once its message is done is of one piece: `Cause` says what
decided how the message ended, and `Coherent` what its outcome then shows. Main
statement: `outcomes_are_coherent`, after any commands.
-/

namespace Transact

/-- What decided how a message ended. -/
inductive Cause
  /-- It was beyond the depth limit. -/
  | depth
  /-- Its value could not be paid. -/
  | payment
  /-- There was no code to run. -/
  | absence
  /-- Its code, which halted with `h`. -/
  | code (h : Halt)

namespace Cause

/-- The exception that `cause` leads to, if any, for a message `k`. Code that halted well
fails all the same if it was to make a contract and could not be stored. -/
def Raises (k : Message) (o : Outcome) : Cause → Prop
  | depth => o.exception = some .callDepthExceeded
  | payment => o.exception = some .notEnoughCash
  | absence => o.exception = none
  | code h => (h.exception ≠ none → o.exception = h.exception) ∧
      (h.exception = none → o.exception = none ∨ o.exception = some .outOfGas ∧
        k.isCreation ∧ o.deposit = .failed h.output.length h.gasLeft)

end Cause

/-- An outcome of one piece. -/
structure Coherent (k : Message) (cause : Cause) (o : Outcome) : Prop where
  newAddress : o.newAddress.isSome ↔ k.isCreation ∧ o.exception = none
  excepted : o.exception ≠ none → o.substate = ∅ ∧ ∀ size gas, o.deposit ≠ .success size gas
  raised : cause.Raises k o
  forfeited : ∀ e, o.exception = some e →
    (∃ h, cause = .code h) ∧ e ≠ .revertInstruction ∨ e = .callDepthExceeded →
    o.gas = 0 ∧ o.output = []
  reverted : o.exception = some .revertInstruction → ∃ h, cause = .code h ∧
    h.exception = some .revertInstruction ∧ o.gas = h.gasLeft ∧ o.output = h.output
  unpaid : cause = .payment → o.gas = k.gas ∧ o.output = []

theorem Coherent.keeps {k : Message} {cause : Cause} {o o' : Outcome} (h : Coherent k cause o)
    (hk : Execution.Keeps o o') : Coherent k cause o' := by
  by_cases he : o.exception = none
  · have he' : o'.exception = none := hk.exception.trans he
    refine
      { newAddress := by rw [hk.newAddress, hk.exception]; exact h.newAddress
        excepted := fun hne => absurd he' hne
        raised := ?_
        forfeited := fun e hx => by cases he'.symm.trans hx
        reverted := fun hx => by cases he'.symm.trans hx
        unpaid := ?_ }
    · have hr := h.raised
      unfold Cause.Raises at hr ⊢
      rw [hk.exception, hk.deposit]
      exact hr
    · rintro rfl
      have hr : o.exception = some .notEnoughCash := h.raised
      cases he.symm.trans hr
  · rw [hk.eq_of_exception he]
    exact h

/-- A refused message reports its exception and nothing else. -/
theorem coherent_refused {k : Message} {cause : Cause} {gas : Quantity} {e : Exception}
    (hraised : cause.Raises k (.refused gas e))
    (hforfeited : e = .callDepthExceeded ∧ gas = 0 ∨ cause = .payment ∧ gas = k.gas ∧
      e = .notEnoughCash) : Coherent k cause (.refused gas e) where
  newAddress := ⟨nofun, fun h => nomatch h.2⟩
  excepted _ := ⟨rfl, nofun⟩
  raised := hraised
  forfeited := by
    rintro _ ⟨⟩ he
    refine ⟨?_, rfl⟩
    rcases hforfeited with ⟨-, hg⟩ | ⟨rfl, -, rfl⟩
    · exact hg
    · rcases he with ⟨⟨_, hc⟩, -⟩ | hc <;> cases hc
  reverted hx := by
    rcases hforfeited with ⟨rfl, -⟩ | ⟨-, -, rfl⟩ <;> cases hx
  unpaid hc := by
    refine ⟨?_, rfl⟩
    rcases hforfeited with ⟨rfl, -⟩ | ⟨-, hg, -⟩
    · subst hc
      cases hraised
    · exact hg

/-- Code that ran, after its deposit. -/
theorem Machine.coherent_ended {β : Type} {m : Machine} {k : Message} {p : Pending}
    {h h' : Halt} {d : Deposit} {s : Substate} {w₁ w₂ : World β}
    (hp : p.isCreation = k.isCreation) (hd : m.Deposited p h w₁ h' d w₂) :
    Coherent k (.code h) (h'.ended p d s) := by
  have hdeposit : (h'.ended p d s).deposit = d := by
    unfold Halt.ended
    split
    · rfl
    · split <;> rfl
  have hexception : (h'.ended p d s).exception = h'.exception := Halt.exception_ended
  refine
    { newAddress := ?_
      excepted := ?_
      raised := ?_
      forfeited := ?_
      reverted := ?_
      unpaid := nofun }
  · rw [Halt.newAddress_ended, hexception]
    unfold Pending.newAddress
    rw [hp]
    cases k.isCreation <;> cases h'.exception <;> simp
  · intro hne
    rw [hexception] at hne
    refine ⟨Halt.substate_ended_of_some hne, ?_⟩
    rw [hdeposit]
    cases hd with
    | nothing => exact nofun
    | failed => exact nofun
    | stored _ he _ => exact absurd he hne
  · unfold Cause.Raises
    dsimp only
    rw [hexception, hdeposit]
    cases hd with
    | nothing => exact ⟨fun _ => rfl, fun he => .inl he⟩
    | stored _ he _ => exact ⟨fun _ => rfl, fun _ => .inl he⟩
    | failed hc he _ =>
      refine ⟨fun hne => absurd he hne, fun _ => ?_⟩
      dsimp only
      split
      · exact .inr ⟨rfl, hp ▸ hc, rfl⟩
      · exact .inl rfl
  · intro e he hcase
    rw [hexception] at he
    have hforfeits : e.forfeitsGas = true := by
      rcases hcase with ⟨-, hne⟩ | rfl
      · simpa [Exception.forfeitsGas, Exception.isRevert] using hne
      · rfl
    unfold Halt.ended
    rw [he]
    dsimp only
    rw [if_pos hforfeits]
    exact ⟨rfl, rfl⟩
  · intro he
    rw [hexception] at he
    have hkept : ¬ Exception.revertInstruction.forfeitsGas = true := by decide
    have hsame : h' = h := by
      cases hd with
      | nothing => rfl
      | stored _ hnone _ => cases hnone.symm.trans he
      | failed =>
        dsimp only at he
        split at he <;> cases he
    refine ⟨h, rfl, hsame ▸ he, ?_⟩
    unfold Halt.ended
    rw [he]
    dsimp only
    rw [if_neg hkept, hsame]
    exact ⟨rfl, rfl⟩

namespace Machine

variable {β : Type} [Store β] {m : Machine} {observer : Observer} {depth : Nat}
  {terms : Terms} {k : Message} {w w' : World β} {o : Outcome}

/-- What decides how the message `k` ends that begins in the world `w`. -/
inductive Caused (m : Machine) (observer : Observer) (depth : Nat) (terms : Terms)
    (k : Message) (w : World β) : Cause → Prop
  | depth (hd : m.rules.callDepthLimit < depth) : Caused m observer depth terms k w .depth
  | payment {e : Exception} (hd : depth ≤ m.rules.callDepthLimit)
      (hp : m.paid terms k w.ledger = .error e) : Caused m observer depth terms k w .payment
  | absence {l : Ledger β} (hd : depth ≤ m.rules.callDepthLimit)
      (hp : m.paid terms k w.ledger = .ok l) (hc : k.code l = []) :
      Caused m observer depth terms k w .absence
  | code {p : Pending} {w₁ : World β} (hb : m.begin depth terms k w = (.pending p, w₁)) :
      Caused m observer depth terms k w (.code (m.play observer depth p w₁).1)

theorem eq_of_paid_error {l : Ledger β} {e : Exception} (h : m.paid terms k l = .error e) :
    e = .notEnoughCash := by
  unfold paid Ledger.pay Ledger.transfer Ledger.debit at h
  split at h
  · cases h
    rfl
  · cases h

/-- Every message ends with a coherent outcome. -/
theorem coherent_of_send (h : m.send observer depth terms k w = (.closed o, w')) :
    ∃ cause, m.Caused observer depth terms k w cause ∧ Coherent k cause o := by
  rcases hb : m.begin depth terms k w with ⟨o' | p, w₁⟩
  · rw [m.send_of_done observer hb] at h
    cases h
    obtain ⟨hd, hr⟩ | ⟨hd, hr⟩ := begin_eq_done hb
    · cases hr
      exact ⟨.depth, .depth hd, coherent_refused rfl (.inl ⟨rfl, rfl⟩)⟩
    · cases hr with
      | unpaid hp =>
        cases eq_of_paid_error hp
        exact ⟨.payment, .payment hd hp, coherent_refused rfl (.inr ⟨rfl, rfl, rfl⟩)⟩
      | idle hp hc =>
        refine ⟨.absence, .absence hd hp hc, ?_, fun hne => absurd rfl hne, rfl, nofun, nofun,
          nofun⟩
        unfold Message.pending Pending.newAddress Outcome.untouched
        cases k.isCreation <;> simp
  · rw [m.send_of_pending observer hb] at h
    obtain ⟨hd, hr⟩ := begin_eq_pending hb
    have hp := hr.isCreation_of_pending
    obtain ⟨h', d, w₂, hdeposit, he⟩ := m.conclude_eq_close depth p (m.play observer depth p w₁).1
      (m.play observer depth p w₁).2.1 (m.play observer depth p w₁).2.2
    rw [m.run_eq_conclude observer p w₁ hd, he] at h
    by_cases hopen : w₂.ledger.openCount = 0
    · unfold close at h
      rw [if_pos hopen] at h
      cases h
    · rw [close_of_open depth p h' d _ hopen] at h
      cases h
      exact ⟨_, .code hb, coherent_ended hp hdeposit⟩

end Machine

namespace Execution

variable {β : Type} [Store β] {m : Machine} {depth : Nat} {parent : Substate} {w : World β}
  {turns : List Turn} {s : Scene β}

/-- What `x` shows is of one piece, seen from the message that it was made to send and
from what decided how that ended. -/
inductive Shows (m : Machine) (depth : Nat) (w : World β) (turns : List Turn) (x : Execution) :
    Prop
  | intro {task : Task} {a : Option Accepted} {terms : Terms} {message : Message}
      {w₀ : World β} {observer : Observer} {cause : Cause} (ht : TakenUp turns task)
      (hs : Sends m w task a terms message w₀)
      (hc : m.Caused observer depth terms message w₀ cause)
      (hrun : ∀ h, cause = .code h → (.run observer, .ok) ∈ turns)
      (ho : Coherent message cause x.outcome) : Shows m depth w turns x

/-- Code that was run, was run on demand. -/
theorem mem_of_caused {observer : Observer} {terms : Terms} {message : Message} {w₀ : World β}
    {cause : Cause} (hc : m.Caused observer depth terms message w₀ cause)
    (hrun : (∃ o, (m.begin depth terms message w₀).1 = .done o) ∨ (.run observer, .ok) ∈ turns)
    (h : Halt) (hh : cause = .code h) : (.run observer, .ok) ∈ turns := by
  subst hh
  cases hc with
  | code hb =>
    rcases hrun with ⟨o, ho⟩ | hmem
    · rw [hb] at ho
      cases ho
    · exact hmem

/-- An execution whose message is done. -/
theorem shows_of_stands {x : Execution} {v : World β} (h : Stands m depth w turns x.phase v)
    (hstage : x.stage = .executed ∨ x.stage = .finalized) : Shows m depth w turns x := by
  unfold stage at hstage
  cases hx : x.phase with
  | executed a o =>
    rw [hx] at h
    obtain ⟨task, terms, message, w₀, observer, o', ht, hs, hrun, hc, ho⟩ := h.of_executed
    obtain ⟨cause, hcause, hcoherent⟩ := Machine.coherent_of_send hc
    refine .intro ht hs hcause (mem_of_caused hcause hrun) ?_
    rw [outcome_of_executed hx]
    exact hcoherent.keeps ho.keeps
  | finalized a o logs =>
    rw [hx] at h
    cases h with
    | finalized ht hv hrun hc ho hm hr hphase =>
      obtain ⟨cause, hcause, hcoherent⟩ := Machine.coherent_of_send hc
      refine .intro ht (.transaction hv) hcause (mem_of_caused hcause hrun) ?_
      rw [outcome_of_finalized hx]
      exact hcoherent.keeps
        ((ho.keeps.trans (keeps_of_refund hr)).trans (keeps_of_conclude hphase).1)
  | _ => simp [hx] at hstage

/-- Only a finalized success has logs. -/
theorem succeeded_of_logs {x : Execution} {v : World β} (h : Stands m depth w turns x.phase v)
    (hlogs : x.logs ≠ []) : x.stage = .finalized ∧ x.outcome.exception = none := by
  unfold logs at hlogs
  cases hx : x.phase with
  | finalized a o logs =>
    rw [hx] at h hlogs
    refine ⟨by unfold stage; rw [hx], ?_⟩
    rw [outcome_of_finalized hx]
    cases h with
    | finalized ht hv hrun hc ho hm hr hphase =>
      obtain ⟨hk, hl⟩ := keeps_of_conclude hphase
      rw [hk.exception]
      split at hl
      · next he => exact he
      · exact absurd hl hlogs
  | _ => simp [hx] at hlogs

/-- Whatever a new execution was asked, in whatever order. Once its message is done, what
it shows is of one piece, also when it was finalized since; it has logs only if it is a
finalized success; and if it was rejected, it shows the exception and nothing else. -/
theorem outcomes_are_coherent (hi : m.interpreter.Confined)
    (h : Scene.Course ⟨.new m depth, parent, w⟩ turns s) :
    (s.execution.stage = .executed ∨ s.execution.stage = .finalized →
      Shows m depth w turns s.execution) ∧
    (s.execution.logs ≠ [] →
      s.execution.stage = .finalized ∧ s.execution.outcome.exception = none) ∧
    (s.execution.stage = .rejected → s.execution.outcome.exception ≠ none ∧
      s.execution.outcome.newAddress = none ∧ s.execution.outcome.substate = ∅ ∧
      s.execution.logs = []) := by
  obtain ⟨-, -, hs⟩ := h.stands hi
  refine ⟨shows_of_stands hs, succeeded_of_logs hs, fun hstage => ?_⟩
  unfold stage at hstage
  unfold outcome logs
  cases hx : s.execution.phase with
  | rejected e c => exact ⟨nofun, rfl, rfl, rfl⟩
  | _ => simp [hx] at hstage

/-- Code that runs out of gas has none left and returns nothing. -/
theorem outcome_of_failing_code :
    ∃ s : Scene State, Scene.Course ⟨.new (.plain .failing) 0, ∅, .plain⟩
        [(.dispatch ⟨7, 0⟩ (.call .toSelf), .done false), (.run .silent, .ok)] s ∧
      s.execution.outcome.exception = some .outOfGas ∧ s.execution.outcome.gas = 0 ∧
      s.execution.outcome.output = [] ∧ s.execution.outcome.substate = ∅ ∧
      s.execution.logs = [] := by
  have h : ∃ s : Scene State, Scene.Course ⟨.new (.plain .failing) 0, ∅, .plain⟩
      [(.dispatch ⟨7, 0⟩ (.call .toSelf), .done false), (.run .silent, .ok)] s ∧
      s.execution.stage = .executed ∧ s.execution.outcome.exception = some .outOfGas :=
    ⟨_, .snoc (.snoc .nil rfl) rfl, rfl, rfl⟩
  obtain ⟨s, hs, hstage, hx⟩ := h
  obtain ⟨hshows, hlogs, -⟩ := outcomes_are_coherent Interpreter.confined_failing hs
  have hnone : s.execution.logs = [] := by
    apply Classical.byContradiction
    intro hne
    cases (hlogs hne).1.symm.trans hstage
  obtain ⟨-, -, hc, -, ho⟩ := hshows (.inl hstage)
  have hraised := ho.raised
  unfold Cause.Raises at hraised
  rw [hx] at hraised
  cases hc with
  | depth => cases hraised
  | payment => cases hraised
  | absence => cases hraised
  | code hb =>
    obtain ⟨hgas, hout⟩ := ho.forfeited _ hx (.inl ⟨⟨_, rfl⟩, by decide⟩)
    exact ⟨s, hs, hx, hgas, hout, (ho.excepted (by simp [hx])).1, hnone⟩

end Execution

end Transact
