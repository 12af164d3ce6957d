import Transact.Machine
import Transact.Proofs.Layers

/-!
How a message goes before its code runs and after it has halted: `Received` and
`Deposited` list the cases.
-/

namespace Transact

/-- The entries for a message that gets a checkpoint. -/
def World.announce {β : Type} (w : World β) (depth : Nat) (c : Context) (message : Message) :
    World β :=
  (w.event (message.event depth c)).remark (message.opened depth c)

namespace Machine

variable {β : Type} (m : Machine)

/-- The ledger with a checkpoint for a message and, if it is a creation, with the
place cleared for the contract. -/
def openFor (message : Message) (target : Address) (l : Ledger β) : Ledger β :=
  if message.isCreation then m.prepare target l.push else l.push

theorem sameBelow_openFor (message : Message) (target : Address) (l : Ledger β) :
    l.push.SameBelow (m.openFor message target l) := by
  unfold openFor prepare
  split
  · split
    · exact ⟨rfl, rfl⟩
    · exact ⟨rfl, rfl⟩
  · exact .refl _

variable [Store β]

/-- The ledger for the code of a message, its value moved. -/
def paid (terms : Terms) (message : Message) (l : Ledger β) : Except Exception (Ledger β) :=
  (m.openFor message (message.context terms l).address l).pay (message.context terms l)

theorem sameBelow_of_paid {terms : Terms} {message : Message} {l l' : Ledger β}
    (h : m.paid terms message l = .ok l') : l.push.SameBelow l' :=
  (m.sameBelow_openFor message _ l).trans (Ledger.sameBelow_of_transfer h)

end Machine

theorem Message.terms_context {β : Type} [Store β] (message : Message) (terms : Terms)
    (l : Ledger β) : (message.context terms l).terms = terms := by
  cases message <;> rfl

/-- The message, waiting for its code to run on `l`. -/
def Message.pending {β : Type} [Store β] (message : Message) (c : Context) (l : Ledger β) :
    Pending :=
  ⟨c, message.code l, message.input, message.gas, message.isCreation⟩

namespace Machine

variable {β : Type} [Store β] (m : Machine)

/-- How a message within the depth limit begins. -/
inductive Received (depth : Nat) (terms : Terms) (message : Message) (w : World β) :
    Admission → World β → Prop
  /-- Its value cannot be paid. -/
  | unpaid {e : Exception} (h : m.paid terms message w.ledger = .error e) :
      Received depth terms message w (.done (.refused message.gas e))
        { w.announce depth (message.context terms w.ledger) message with ledger := w.ledger }
  /-- There is no code to run. -/
  | idle {l : Ledger β} (h : m.paid terms message w.ledger = .ok l) (hc : message.code l = []) :
      Received depth terms message w
        (.done (.untouched message.gas
          (message.pending (message.context terms w.ledger) l).newAddress))
        { w.announce depth (message.context terms w.ledger) message with ledger := l.pop .commit }
  | waiting {l : Ledger β} (h : m.paid terms message w.ledger = .ok l)
      (hc : message.code l ≠ []) :
      Received depth terms message w
        (.pending (message.pending (message.context terms w.ledger) l))
        { w.announce depth (message.context terms w.ledger) message with ledger := l }

theorem receive_eq (depth : Nat) (terms : Terms) (message : Message) (w : World β) :
    m.receive depth terms message w =
      let c := message.context terms w.ledger
      let v := w.announce depth c message
      match m.paid terms message w.ledger with
      | .error e =>
        (.done (.refused message.gas e),
          { v with ledger := (m.openFor message c.address w.ledger).pop .revert })
      | .ok l =>
        if (message.code l).isEmpty then
          (.done (.untouched message.gas (message.pending c l).newAddress),
            { v with ledger := l.pop .commit })
        else (.pending (message.pending c l), { v with ledger := l }) := by
  cases message <;> rfl

theorem received (depth : Nat) (terms : Terms) (message : Message) (w : World β) :
    m.Received depth terms message w (m.receive depth terms message w).1
      (m.receive depth terms message w).2 := by
  rw [receive_eq]
  cases h : m.paid terms message w.ledger with
  | error e =>
    have hl := (m.sameBelow_openFor message
      (message.context terms w.ledger).address w.ledger).pop_revert_of_push
    simp only [hl]
    exact .unpaid h
  | ok l =>
    by_cases hc : message.code l = []
    · simp only [hc, List.isEmpty_nil, ↓reduceIte]
      exact .idle h hc
    · simp only [List.isEmpty_iff, hc, ↓reduceIte]
      exact .waiting h hc

namespace Received

variable {m} {depth : Nat} {terms : Terms} {message : Message} {w w' : World β}

theorem sameBelow_of_done {o : Outcome} (h : m.Received depth terms message w (.done o) w') :
    w.ledger.SameBelow w'.ledger := by
  cases h with
  | unpaid => exact .refl _
  | idle hp => exact (m.sameBelow_of_paid hp).pop_commit_of_push

theorem sameBelow_of_pending {p : Pending}
    (h : m.Received depth terms message w (.pending p) w') :
    w.ledger.push.SameBelow w'.ledger := by
  cases h with
  | waiting hp => exact m.sameBelow_of_paid hp

theorem gas_of_pending {p : Pending} (h : m.Received depth terms message w (.pending p) w') :
    p.gas = message.gas := by
  cases h
  rfl

theorem isCreation_of_pending {p : Pending}
    (h : m.Received depth terms message w (.pending p) w') :
    p.isCreation = message.isCreation := by
  cases h
  rfl

theorem context_of_pending {p : Pending}
    (h : m.Received depth terms message w (.pending p) w') :
    p.context = message.context terms w.ledger := by
  cases h
  rfl

end Received

end Machine

/-! Beyond the depth limit. -/

/-- What is left of `l` by a message beyond the depth limit: the endowment of a
creation moves if its creator can pay it. -/
def Message.leftOver {β : Type} [Store β] (l : Ledger β) : Message → Ledger β
  | .call _ => l
  | .create c =>
    match l.transfer c.creator (l.creationTarget c.creator) c.endowment with
    | .error _ => l
    | .ok l' => l'

theorem Message.sameBelow_leftOver {β : Type} [Store β] (l : Ledger β) (message : Message) :
    l.SameBelow (message.leftOver l) := by
  cases message with
  | call c => exact .refl _
  | create c =>
    unfold leftOver
    dsimp only
    split
    · exact .refl _
    · next h => exact Ledger.sameBelow_of_transfer h

theorem Machine.ledger_refuse {β : Type} [Store β] (depth : Nat) (terms : Terms)
    (message : Message) (w : World β) :
    (refuse depth terms message w).2.ledger = message.leftOver w.ledger := by
  cases message with
  | call c => rfl
  | create c =>
    unfold Message.leftOver
    dsimp only
    cases h : w.ledger.transfer c.creator (w.ledger.creationTarget c.creator) c.endowment with
    | error e =>
      have hp : w.ledger.pay ((Message.create c).context terms w.ledger) = .error e := h
      simp [refuse, Message.isCreation, World.event, World.write, World.remark, hp]
    | ok l =>
      have hp : w.ledger.pay ((Message.create c).context terms w.ledger) = .ok l := h
      simp [refuse, Message.isCreation, World.event, World.write, World.remark, hp]

/-! The end of a message. -/

theorem Substate.absorb_of_none {o : Outcome} (ho : o.exception = none) (s : Substate) :
    s.absorb o = s.join o.substate := by
  unfold absorb
  rw [if_pos (by simp [ho])]

theorem Substate.absorb_of_exception {o : Outcome} (ho : o.exception ≠ none) (s : Substate) :
    s.absorb o = s := by
  unfold absorb
  rw [if_neg (by simpa using ho)]

/-- The outcome of pending code that halted with `h` and the side effects `s`. -/
def Halt.ended (h : Halt) (p : Pending) (d : Deposit) (s : Substate) : Outcome :=
  match h.exception with
  | none => ⟨h.gasLeft, h.output, none, p.newAddress, d, s⟩
  | some e =>
    if e.forfeitsGas then ⟨0, [], some e, none, d, ∅⟩
    else ⟨h.gasLeft, h.output, some e, none, d, ∅⟩

namespace Halt

variable {h : Halt} {p : Pending} {d : Deposit} {s : Substate}

theorem ended_of_none (he : h.exception = none) :
    h.ended p d s = ⟨h.gasLeft, h.output, none, p.newAddress, d, s⟩ := by
  unfold ended
  rw [he]

theorem exception_ended : (h.ended p d s).exception = h.exception := by
  unfold ended
  cases h.exception with
  | none => rfl
  | some e => dsimp only; split <;> rfl

theorem newAddress_ended :
    (h.ended p d s).newAddress = if h.exception = none then p.newAddress else none := by
  unfold ended
  cases h.exception with
  | none => rfl
  | some e => dsimp only; split <;> rfl

theorem substate_ended_of_some (he : h.exception ≠ none) : (h.ended p d s).substate = ∅ := by
  unfold ended
  cases hx : h.exception with
  | none => exact absurd hx he
  | some e => dsimp only; split <;> rfl

theorem gas_ended_le : (h.ended p d s).gas ≤ h.gasLeft := by
  unfold ended
  cases h.exception with
  | none => exact Nat.le_refl _
  | some e =>
    dsimp only
    split
    · exact Nat.zero_le _
    · exact Nat.le_refl _

end Halt

namespace World

variable {β : Type}

/-- The world once the checkpoint of a message with outcome `o` is closed. -/
def closed (w : World β) (depth : Nat) (o : Outcome) : World β :=
  match o.exception with
  | none =>
    ((w.edit (·.pop .commit)).remark (.committed depth)).event (.exit depth none o.gas o.output)
  | some e =>
    ((w.edit (·.pop .revert)).remark (.excepted depth e)).event
      (.exit depth (some e) o.gas o.output)

theorem ledger_closed_of_none {w : World β} {depth : Nat} {o : Outcome}
    (he : o.exception = none) : (w.closed depth o).ledger = w.ledger.pop .commit := by
  unfold closed
  rw [he]
  rfl

theorem ledger_closed_of_some {w : World β} {depth : Nat} {o : Outcome}
    (he : o.exception ≠ none) : (w.closed depth o).ledger = w.ledger.pop .revert := by
  unfold closed
  cases hx : o.exception with
  | none => exact absurd hx he
  | some e => rfl

end World

namespace Machine

variable {β : Type} (m : Machine)

/-- Code of `size` bytes is more than the rules allow. -/
def tooLarge (size : Nat) : Bool := m.rules.codeSizeLimit.any (· < size)

/-- How the code that pending code returned is taken. -/
inductive Deposited (p : Pending) (h : Halt) (w : World β) : Halt → Deposit → World β → Prop
  /-- Only a creation that halted well has code to deposit. -/
  | nothing (hp : p.isCreation = false ∨ h.exception ≠ none) : Deposited p h w h .none w
  | failed (hp : p.isCreation) (he : h.exception = none)
      (hc : m.tooLarge h.output.length ∨
        h.gasLeft.toNat < depositCost m.rules h.output.length) :
      Deposited p h w
        { h with
          exception := if m.tooLarge h.output.length || m.rules.failedDepositIsExceptional
            then some .outOfGas else none }
        (.failed h.output.length h.gasLeft)
        (w.remark (.depositFailed h.output.length h.gasLeft))
  | stored (hp : p.isCreation) (he : h.exception = none)
      (hc : ¬ m.tooLarge h.output.length ∧
        depositCost m.rules h.output.length ≤ h.gasLeft.toNat) :
      Deposited p h w { h with gasLeft := h.gasLeft - .ofNat (depositCost m.rules h.output.length) }
        (.success h.output.length h.gasLeft) (w.edit (·.setCode p.context.address h.output))

namespace Deposited

variable {m} {p : Pending} {h h' : Halt} {d : Deposit} {w w' : World β}

theorem sameBelow (hd : m.Deposited p h w h' d w') : w.ledger.SameBelow w'.ledger := by
  cases hd with
  | nothing => exact .refl _
  | failed => exact .refl _
  | stored => exact ⟨rfl, rfl⟩

theorem gas_le (hd : m.Deposited p h w h' d w') : h'.gasLeft ≤ h.gasLeft := by
  cases hd with
  | nothing => exact Nat.le_refl _
  | failed => exact Nat.le_refl _
  | stored =>
    rw [Quantity.le_def, Quantity.toNat_sub]
    exact Nat.sub_le _ _

end Deposited

/-- The checkpoint is closed after the deposit. -/
theorem conclude_eq_close (depth : Nat) (p : Pending) (h : Halt) (s : Substate) (w : World β) :
    ∃ h' d w', m.Deposited p h w h' d w' ∧
      m.conclude depth p h s w = close depth p h' d s w' := by
  unfold conclude
  split
  · next hp =>
    simp only [Bool.and_eq_true, Option.isNone_iff_eq_none] at hp
    unfold deposit
    dsimp only
    split
    · next hc =>
      simp only [Bool.or_eq_true, decide_eq_true_eq] at hc
      exact ⟨_, _, _, .failed hp.1 hp.2 hc, rfl⟩
    · next hc =>
      simp only [Bool.or_eq_true, decide_eq_true_eq, not_or, Nat.not_lt] at hc
      exact ⟨_, _, _, .stored hp.1 hp.2 hc, rfl⟩
  · next hp =>
    refine ⟨_, _, _, .nothing ?_, rfl⟩
    simpa [Option.isNone_iff_eq_none, Classical.or_iff_not_imp_left] using hp

/-- A checkpoint that is open is closed, well or badly. -/
theorem close_of_open (depth : Nat) (p : Pending) (h : Halt) (d : Deposit) (s : Substate)
    {w : World β} (hopen : w.ledger.openCount ≠ 0) :
    close depth p h d s w = (.closed (h.ended p d s), w.closed depth (h.ended p d s)) := by
  unfold close Halt.ended World.closed
  rw [if_neg hopen]
  cases h.exception with
  | none => rfl
  | some e => cases he : e.forfeitsGas <;> simp [he]

/-- Pending code whose checkpoint is open ends well or badly, after its deposit. -/
theorem conclude_of_open (depth : Nat) (p : Pending) (h : Halt) (s : Substate) {w : World β}
    (hopen : w.ledger.openCount ≠ 0) :
    ∃ h' d w', m.Deposited p h w h' d w' ∧
      m.conclude depth p h s w =
        (.closed (h'.ended p d s), w'.closed depth (h'.ended p d s)) := by
  obtain ⟨h', d, w', hd, he⟩ := m.conclude_eq_close depth p h s w
  have hopen' : w'.ledger.openCount ≠ 0 := by
    unfold Ledger.openCount at hopen ⊢
    rwa [hd.sameBelow.below]
  rw [he, close_of_open depth p h' d s hopen']
  exact ⟨h', d, w', hd, rfl⟩

end Machine

end Transact
