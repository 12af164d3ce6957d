import Transact.Proofs.Courses
import Transact.Proofs.Deposits
import Transact.Proofs.Reporting

/-!
Where the creation of an accepted transaction goes. The address is found twice: from the
nonce of the transaction when it is announced, and from the counted nonce of the sender when
the creation begins. `Execution.Creates` follows the second one to the end. Main statement:
`Execution.creation_is_announced`; at the last nonce the two differ.
-/

namespace Transact

/-- Counting stops at the last nonce, but uncounting does not. -/
theorem Quantity.toNat_add_one_sub_one (n : Quantity) :
    (n + 1 - 1).toNat = min n.toNat (2 ^ 256 - 2) := by
  rw [toNat_sub, toNat_add, toNat_one]
  unfold most
  omega

theorem Quantity.add_one_sub_one {n : Quantity} (h : n.toNat < 2 ^ 256 - 1) : n + 1 - 1 = n := by
  ext
  rw [toNat_add_one_sub_one]
  omega

namespace Machine

variable {β : Type} [Store β] (m : Machine) (observer : Observer)

/-- Code that ran leaves its message the new address, unless it failed. -/
theorem newAddress_run {d : Nat} {p : Pending} {w w' : World β} {e : Ending}
    (h : m.run observer d p w = (e, w')) (o : Outcome) (ho : e = .closed o ∨ e = .uneven o) :
    o.newAddress = p.newAddress ∨ o.exception ≠ none ∧ o.newAddress = none := by
  obtain ⟨halt, deposit, w₂, -, hclose⟩ := m.conclude_eq_close d p (m.play observer d p w).1
    (m.play observer d p w).2.1 (m.play observer d p w).2.2
  rw [m.run_eq_play, hclose] at h
  by_cases hopen : w₂.ledger.openCount = 0
  · unfold close at h
    rw [if_pos hopen] at h
    cases h
    rcases ho with ho | ho
    · cases ho
    · cases ho
      exact .inl rfl
  · rw [close_of_open d p halt deposit _ hopen] at h
    cases h
    rcases ho with ho | ho
    · cases ho
      rw [Halt.newAddress_ended, Halt.exception_ended]
      by_cases he : halt.exception = none
      · exact .inl (if_pos he)
      · exact .inr ⟨he, if_neg he⟩
    · cases ho

end Machine

namespace Execution

variable {β : Type} [Store β]

/-- The creation of `x` goes to `target`: its init code is to run there, and that is the
new address unless it fails. -/
structure Creates (x : Execution) (target : Address) (initCode : Bytes) : Prop where
  pending : ∀ a p, x.phase = .awaiting a p →
    p.isCreation = true ∧ p.context.address = target ∧ p.code = initCode
  newAddress : x.outcome.newAddress = some target ∨
    x.outcome.exception ≠ none ∧ x.outcome.newAddress = none

theorem creates_start (x : Execution) (a : Option Accepted) (terms : Terms) (c : Creation)
    (w : World β) :
    (x.start a terms (.create c) w).2.1.Creates (w.ledger.creationTarget c.creator)
      c.initCode := by
  unfold start
  rcases hb : x.machine.begin x.depth terms (.create c) w with ⟨o | p, w'⟩
  · refine ⟨fun _ _ h => Phase.noConfusion h, ?_⟩
    obtain ⟨-, hr⟩ | ⟨-, hr⟩ := Machine.begin_eq_done hb
    · cases hr
      exact .inr ⟨nofun, rfl⟩
    · cases hr with
      | unpaid => exact .inr ⟨nofun, rfl⟩
      | idle => exact .inl rfl
  · obtain ⟨-, hr⟩ := Machine.begin_eq_pending hb
    refine ⟨?_, ?_⟩
    · intro b q hq
      cases hq
      cases hr
      exact ⟨rfl, rfl, rfl⟩
    · cases hr
      exact .inl rfl

namespace Creates

variable {x : Execution} {target : Address} {initCode : Bytes}

theorem run (h : x.Creates target initCode) (observer : Observer) (w : World β) :
    (x.run observer w).2.1.Creates target initCode := by
  unfold Execution.run
  split
  · next a p hx =>
    obtain ⟨hcreation, htarget, -⟩ := h.pending a p hx
    have hplace : p.newAddress = some target := by
      unfold Pending.newAddress
      rw [if_pos hcreation, htarget]
    rcases hr : x.machine.run observer x.depth p w with ⟨o | o, w'⟩
    · have hn := x.machine.newAddress_run observer hr o (.inl rfl)
      rw [hplace] at hn
      exact ⟨fun _ _ hq => Phase.noConfusion hq, hn⟩
    · have hn := x.machine.newAddress_run observer hr o (.inr rfl)
      rw [hplace] at hn
      exact ⟨fun _ _ hq => Phase.noConfusion hq, hn⟩
  · exact h

theorem finalize {x' : Execution} {w w' : World β} {r : Except Error Unit}
    (h : x.Creates target initCode) (hf : x.finalize w = .ok (r, x', w')) :
    x'.Creates target initCode := by
  unfold Execution.finalize at hf
  split at hf
  · next a o hx =>
    obtain ⟨⟨paid, refunded⟩, hr, hf⟩ := bind_eq_ok.mp hf
    obtain ⟨final, logs, hphase⟩ := x.phase_conclude a paid refunded w
    have hkeeps := (keeps_of_refund hr).trans (keeps_of_conclude hphase).1
    have hpair : x.conclude a paid refunded w = (x', w') :=
      (Prod.mk.inj (Except.ok.inj hf)).2
    have hn := h.newAddress
    rw [hpair] at hphase
    refine ⟨fun _ _ hq => Phase.noConfusion (hphase.symm.trans hq), ?_⟩
    rw [outcome_of_finalized hphase, hkeeps.newAddress, hkeeps.exception]
    rw [outcome_of_executed hx] at hn
    exact hn
  · cases hf
    exact h

end Creates

/-- The creation of an admitted transaction begins at the address of its nonce, counted and
uncounted again, whatever it was announced with. -/
theorem execute_of_creation {x : Execution} {a : Accepted} (hx : x.phase = .accepted a)
    (hc : a.transaction.action = .create) {w : World β} (ha : x.machine.Admits w.ledger a) :
    ∃ done x₂ w₂, x.execute (w.edit (·.bumpNonce a.sender)) = (.ok done, x₂, w₂) ∧
      World.Reported (w.edit (·.bumpNonce a.sender)) w₂
        [.transactCreate a.sender a.transaction.value a.transaction.data a.transaction.gasLimit
            (contractAddress a.sender a.transaction.nonce),
          .create a.sender (contractAddress a.sender (a.transaction.nonce + 1 - 1))
            a.transaction.value a.transaction.data a.gas x.depth] ∧
      x₂.Creates (contractAddress a.sender (a.transaction.nonce + 1 - 1)) a.transaction.data ∧
      (done = false → ∃ p, x₂.phase = .awaiting (some a) p) := by
  have htarget : (a.charge w).ledger.creationTarget a.sender =
      contractAddress a.sender (a.transaction.nonce + 1 - 1) := by
    rw [a.creationTarget_charge]
    unfold Ledger.creationTarget Ledger.bumpNonce
    rw [Ledger.nonce_setNonce, if_pos rfl, ha.nonce]
  have hevent : a.event = .transactCreate a.sender a.transaction.value a.transaction.data
      a.transaction.gasLimit (contractAddress a.sender a.transaction.nonce) := by
    unfold Accepted.event
    dsimp only
    rw [hc]
  have hexecute := execute_of_admits hx ha
  have hcreates := x.creates_start (some a) a.terms
    ⟨a.sender, a.transaction.value, a.gas, a.transaction.data⟩ (a.charge w)
  have hreported : World.Reported (w.edit (·.bumpNonce a.sender)) _ _ :=
    (World.Reported.event ⟨(a.charge w).ledger, w.diary⟩ a.event).trans
      (x.reported_start (some a) a.terms a.message (a.charge w))
  rw [Accepted.message_of_create hc] at hexecute hreported
  rw [hevent] at hreported
  rw [← htarget]
  rcases hstart : x.start (some a) a.terms
    (.create ⟨a.sender, a.transaction.value, a.gas, a.transaction.data⟩) (a.charge w)
    with ⟨done, x₂, w₂⟩
  rw [hstart] at hexecute hreported hcreates
  refine ⟨done, x₂, w₂, hexecute, hreported, hcreates, ?_⟩
  intro hdone
  subst hdone
  obtain ⟨p, rfl, -, -⟩ := start_eq_false hstart
  exact ⟨p, rfl⟩

/-- An accepted creation goes to the address of its nonce, counted and uncounted again,
which is the announced one unless the nonce is the last. That address is in the second
event, the init code is entered there first of all, and it is the new address of whatever
ends without an exception, also once finalized. -/
theorem creation_is_announced {x x₁ : Execution} {t : Transaction} {w w₁ : World β}
    (hc : t.action = .create) (h : x.accept t w = (.ok (), x₁, w₁)) :
    ∃ sender target gas, t.sender = some sender ∧
      target = contractAddress sender (t.nonce + 1 - 1) ∧
      (t.nonce.toNat < 2 ^ 256 - 1 → target = contractAddress sender t.nonce) ∧
      ∀ (wanted : Option Bool) (diary : Diary), ∃ done x₂ w₂,
        ({ x₁ with wanted } : Execution).execute ⟨w₁.ledger, diary⟩ = (.ok done, x₂, w₂) ∧
        World.Reported ⟨w₁.ledger, diary⟩ w₂
          [.transactCreate sender t.value t.data t.gasLimit (contractAddress sender t.nonce),
            .create sender target t.value t.data gas x.depth] ∧
        x₂.Creates target t.data ∧
        ∀ (observer : Observer) (v : World β),
          (done = false → ∃ i es, v.Wrote (x₂.run observer v).2.2 (.enter i :: es) ∧
            i.context.address = target ∧ i.code = t.data) ∧
          (x₂.run observer v).2.1.Creates target t.data ∧
          ∀ (v₁ v₂ : World β) r x₃, (x₂.run observer v).2.1.finalize v₁ = .ok (r, x₃, v₂) →
            x₃.Creates target t.data := by
  obtain ⟨a, hv, rfl, rfl⟩ := accept_eq_ok h
  obtain ⟨rfl, ha⟩ := Machine.admits_of_validate hv
  refine ⟨a.sender, _, a.gas, ha.sender, rfl, ?_, ?_⟩
  · intro hn
    rw [Quantity.add_one_sub_one hn]
  · intro wanted diary
    let y : Execution := { x with phase := .accepted a, wanted }
    obtain ⟨done, x₂, w₂, hexecute, hreported, hcreates, hpending⟩ :=
      execute_of_creation (x := y) (w := ⟨w.ledger, diary⟩) rfl hc ha
    refine ⟨done, x₂, w₂, hexecute, hreported, hcreates, ?_⟩
    intro observer v
    have hrun := hcreates.run observer v
    refine ⟨?_, hrun, fun _ _ _ _ hf => hrun.finalize hf⟩
    intro hdone
    obtain ⟨p, hp⟩ := hpending hdone
    obtain ⟨-, haddress, hcode⟩ := hcreates.pending _ p hp
    obtain ⟨es, hw⟩ := x₂.machine.run_enters observer x₂.depth p v
    rw [world_run hp]
    exact ⟨_, es, hw, haddress, hcode⟩

end Execution

theorem deployment_is_announced :
    ∃ x₁ w₁ x₂ w₂ gas, (Execution.new (.plain .deploying) 0).accept .deployment World.plain =
        (.ok (), x₁, w₁) ∧
      x₁.execute w₁ = (.ok false, x₂, w₂) ∧
      World.Reported w₁ w₂ [.transactCreate 7 0 [9] 60000 (contractAddress 7 0),
        .create 7 (contractAddress 7 0) 0 [9] gas 0] ∧
      (∃ i es, w₂.Wrote (x₂.run .silent w₂).2.2 (.enter i :: es) ∧
        i.context.address = contractAddress 7 0 ∧ i.code = [9]) ∧
      (x₂.run .silent w₂).2.1.outcome.newAddress = some (contractAddress 7 0) := by
  let accepted := (Execution.new (.plain .deploying) 0).accept .deployment World.plain
  let begun := accepted.2.1.execute accepted.2.2
  have hran : begun.1 = .ok false ∧
      (begun.2.1.run .silent begun.2.2).2.1.outcome.exception = none := ⟨rfl, rfl⟩
  obtain ⟨sender, target, gas, hs, -, htarget, hruns⟩ :=
    Execution.creation_is_announced (x := .new (.plain .deploying) 0) (t := .deployment)
      (w := World.plain) rfl (rfl : accepted = (.ok (), accepted.2.1, accepted.2.2))
  cases hs
  obtain rfl := htarget (by decide)
  obtain ⟨done, x₂, w₂, he, hreported, -, hrun⟩ := hruns none World.plain.diary
  have hbegun : begun = (.ok done, x₂, w₂) := he
  rw [hbegun] at hran
  obtain ⟨hdone, hx⟩ := hran
  cases hdone
  obtain ⟨henter, hcreates, -⟩ := hrun .silent w₂
  exact ⟨_, _, x₂, w₂, gas, rfl, he, hreported, henter rfl,
    hcreates.newAddress.resolve_right fun hfailed => hfailed.1 hx⟩

/-- The account has no nonce left but the last. -/
def World.worn : World State :=
  ⟨.ofBase ((∅ : State).insert 7 ⟨.ofNat Quantity.most, 100000, [], ∅⟩), #[]⟩

/-- Account 7 makes an empty contract with its last nonce. -/
def Transaction.lastCreation : Transaction :=
  ⟨some 7, .create, .ofNat Quantity.most, 60000, 1, 0, []⟩

theorem contractAddress_of_last_nonce :
    contractAddress 7 (.ofNat Quantity.most) = 0xc7f895da8eba5160f5bffd929ebc93b01a8a96e7 := by
  decide +kernel

theorem contractAddress_of_last_nonce_uncounted :
    contractAddress 7 (.ofNat Quantity.most + 1 - 1) =
      0x00032a680d681dfd6b23d485669f51c339096eaf := by
  decide +kernel

/-- The last creation is announced at one address and begun at another, which is the new
one. -/
theorem last_creation_goes_elsewhere :
    ∃ x₁ w₁ done x₂ w₂ gas, (Execution.new (.plain .failing) 0).accept .lastCreation World.worn =
        (.ok (), x₁, w₁) ∧
      x₁.execute w₁ = (.ok done, x₂, w₂) ∧
      World.Reported w₁ w₂
        [.transactCreate 7 0 [] 60000 0xc7f895da8eba5160f5bffd929ebc93b01a8a96e7,
          .create 7 0x00032a680d681dfd6b23d485669f51c339096eaf 0 [] gas 0] ∧
      contractAddress 7 Transaction.lastCreation.nonce =
        0xc7f895da8eba5160f5bffd929ebc93b01a8a96e7 ∧
      x₂.outcome.newAddress ≠ some 0xc7f895da8eba5160f5bffd929ebc93b01a8a96e7 := by
  let accepted := (Execution.new (.plain .failing) 0).accept .lastCreation World.worn
  have haccepted : accepted = (.ok (), accepted.2.1, accepted.2.2) := rfl
  obtain ⟨a, hv, hx, hw⟩ := Execution.accept_eq_ok haccepted
  obtain ⟨ht, ha⟩ := Machine.admits_of_validate hv
  have hsender : a.sender = 7 := by
    have hs := ha.sender
    rw [ht] at hs
    exact (Option.some.inj hs).symm
  obtain ⟨done, x₂, w₂, he, hreported, hcreates, -⟩ := Execution.execute_of_creation
    (x := accepted.2.1) (congrArg Execution.phase hx) (congrArg Transaction.action ht) ha
  have hstart : accepted.2.2 = World.worn.edit (·.bumpNonce a.sender) := hw
  rw [← hstart] at he hreported
  have hplace : contractAddress a.sender (a.transaction.nonce + 1 - 1) =
      0x00032a680d681dfd6b23d485669f51c339096eaf := by
    rw [hsender, ht]
    exact contractAddress_of_last_nonce_uncounted
  have hlast : contractAddress a.sender a.transaction.nonce =
      0xc7f895da8eba5160f5bffd929ebc93b01a8a96e7 := by
    rw [hsender, ht]
    exact contractAddress_of_last_nonce
  rw [hplace, hlast, hsender, ht] at hreported
  refine ⟨_, _, done, x₂, w₂, a.gas, haccepted, he, hreported, contractAddress_of_last_nonce, ?_⟩
  intro hn
  rcases hcreates.newAddress with hnew | ⟨-, hnew⟩
  · rw [hnew, hplace] at hn
    exact absurd hn (by decide)
  · rw [hnew] at hn
    cases hn

end Transact
