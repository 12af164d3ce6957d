import Transact.Proofs.Arithmetic
import Transact.Proofs.Fees

/-!
Which transactions are accepted. `Machine.conditions` lists the conditions in the order of
their precedence, over numbers without bounds; the first that fails decides. Main statement:
`Execution.acceptance_decides_conditions`.
-/

namespace Transact

/-- What a transaction costs before any work: a base for its action, and a price for each
byte of either kind. -/
def Transaction.intrinsicCost (r : Rules) (t : Transaction) : Nat :=
  (if t.action = .create then r.createGas else r.callGas) +
    r.zeroByteGas * (t.data.filter (· = 0)).length +
    r.nonzeroByteGas * (t.data.filter (· ≠ 0)).length

theorem Transaction.intrinsicGas_eq (r : Rules) (t : Transaction) :
    intrinsicGas r t.isCreation t.data = t.intrinsicCost r := by
  have hzeros : t.data.count 0 = (t.data.filter (· = 0)).length := List.count_eq_length_filter
  unfold intrinsicGas intrinsicCost isCreation
  rw [hzeros, List.countP_eq_length_filter, Nat.mul_comm r.zeroByteGas,
    Nat.mul_comm r.nonzeroByteGas]
  simp only [decide_eq_true_eq]

namespace Machine

variable {β : Type} [Store β] (m : Machine) (l : Ledger β) (t : Transaction)

/-- The conditions for a transaction of `sender`, each with the exception if it fails. -/
def conditions (sender : Address) : List (Exception × Bool) :=
  [(.outOfGasIntrinsic, t.intrinsicCost m.rules ≤ t.gasLimit.toNat),
    (.invalidNonce, l.nonce sender = t.nonce),
    (.blockGasLimitReached,
      m.block.gasUsed.toNat + t.gasLimit.toNat ≤ m.block.gasLimit.toNat),
    (.notEnoughCash,
      t.gasLimit.toNat * t.gasPrice.toNat + t.value.toNat ≤ (l.balance sender).toNat)]

/-- The exception of the first condition that fails, if any does. -/
def firstFailure : Option Exception :=
  match t.sender with
  | none => some .invalidSignature
  | some sender => ((m.conditions l t sender).find? fun c => !c.2).map Prod.fst

theorem validate_of_sender {sender : Address} (hs : t.sender = some sender) :
    m.validate l t =
      if t.gasLimit.toNat < t.intrinsicCost m.rules then .error (.plain .outOfGasIntrinsic)
      else if l.nonce sender ≠ t.nonce then
        .error ⟨.invalidNonce, some (.invalidNonce (l.nonce sender) t.nonce)⟩
      else if m.block.gasLimit.toNat < m.block.gasUsed.toNat + t.gasLimit.toNat then
        .error ⟨.blockGasLimitReached,
          some (.blockGasReached m.block.gasUsed m.block.gasLimit t.gasLimit)⟩
      else if (l.balance sender).toNat <
          t.gasLimit.toNat * t.gasPrice.toNat + t.value.toNat then
        .error (.plain .notEnoughCash)
      else .ok ⟨t, sender, .ofAmounts t.gasLimit t.gasPrice t.value,
        t.gasLimit - .ofNat (t.intrinsicCost m.rules)⟩ := by
  unfold validate payIntrinsic
  rw [hs, t.intrinsicGas_eq]
  dsimp only
  split
  · rfl
  · dsimp only [Except.mapError, bind, Except.bind]
    split
    · rfl
    · split
      · rfl
      · unfold Commitment.fund Commitment.ofAmounts
        by_cases hcash : (l.balance sender).toNat <
          t.gasLimit.toNat * t.gasPrice.toNat + t.value.toNat
        · rw [if_pos hcash, if_pos hcash]
        · rw [if_neg hcash, if_neg hcash]
          rfl

/-- A transaction is accepted if no condition fails, and otherwise the first one tells. -/
theorem validate_eq_of_firstFailure :
    match m.firstFailure l t with
    | some e => ∃ r, m.validate l t = .error r ∧ r.exception = e
    | none => ∃ a, m.validate l t = .ok a := by
  cases hs : t.sender with
  | none =>
    unfold firstFailure validate
    rw [hs]
    exact ⟨_, rfl, rfl⟩
  | some sender =>
    unfold firstFailure conditions
    rw [hs, m.validate_of_sender l t hs]
    simp only [List.find?_cons, List.find?_nil, ← Nat.not_le]
    by_cases hgas : t.intrinsicCost m.rules ≤ t.gasLimit.toNat
    · by_cases hnonce : l.nonce sender = t.nonce
      · by_cases hblock :
          m.block.gasUsed.toNat + t.gasLimit.toNat ≤ m.block.gasLimit.toNat
        · by_cases hcash :
            t.gasLimit.toNat * t.gasPrice.toNat + t.value.toNat ≤ (l.balance sender).toNat
          · simp [hgas, hnonce, hblock, hcash]
          · simp [hgas, hnonce, hblock, hcash, Rejection.plain]
        · simp [hgas, hnonce, hblock]
      · simp [hgas, hnonce]
    · simp [hgas, Rejection.plain]

end Machine

namespace Ledger

variable {β : Type} [Store β]

/-- The next nonce of `sender`, and that it is there, is all that `l'` tells otherwise than
`l`. -/
structure CountedOnly (l l' : Ledger β) (sender : Address) : Prop
    extends Counted l l' sender where
  balance : ∀ a, l'.balance a = l.balance a
  present : ∀ a, l'.present a = true ↔ a = sender ∨ l.present a = true

theorem countedOnly_bumpNonce (l : Ledger β) (sender : Address) :
    CountedOnly l (l.bumpNonce sender) sender :=
  ⟨l.counted_bumpNonce sender, fun _ => rfl, l.present_bumpNonce_iff sender⟩

end Ledger

namespace Execution

variable {β : Type} [Store β]

/-- Checking the intrinsic cost once more with the balance finds nothing new. -/
theorem commit_of_admits {m : Machine} {l : Ledger β} {a : Accepted} (h : m.Admits l a) :
    commit (l.balance a.sender) a.transaction.gasLimit a.transaction.gasPrice
      a.transaction.value (a.transaction.intrinsicCost m.rules) =
        .ok (a.commitment,
          a.transaction.gasLimit - .ofNat (a.transaction.intrinsicCost m.rules)) := by
  have hgas := h.gas
  have hfunded := h.funded
  rw [a.transaction.intrinsicGas_eq] at hgas
  rw [h.commitment] at hfunded ⊢
  unfold commit payIntrinsic Commitment.fund
  rw [if_neg (by omega), if_neg (Nat.not_lt.mpr hfunded)]
  rfl

/-- A new execution accepts a transaction exactly if no condition fails, and otherwise it is
rejected with the first one that does; that this is found in checked arithmetic, on 64, 256
and 512 bits, makes no difference. A rejection leaves the ledger as it is. Acceptance counts
the transaction and changes nothing else, and the commitment is exact. -/
theorem acceptance_decides_conditions {x : Execution} (hx : x.phase = .created)
    {t : Transaction} (ht : t.intrinsicCost x.machine.rules < 2 ^ 64) (w : World β) :
    x.acceptExact t w = .ok (x.accept t w) ∧
    (∀ e, x.machine.firstFailure w.ledger t = some e →
      ∃ x' w', x.accept t w = (.error (.rejected e), x', w') ∧ x'.stage = .rejected ∧
        x'.outcome.exception = some e ∧ w'.ledger = w.ledger) ∧
    (x.machine.firstFailure w.ledger t = none →
      ∃ sender x' w', t.sender = some sender ∧ x.accept t w = (.ok (), x', w') ∧
        x'.stage = .accepted ∧ w.ledger.CountedOnly w'.ledger sender ∧
        x'.commitment = ⟨t.gasLimit.toNat, t.gasLimit.toNat * t.gasPrice.toNat,
          t.gasLimit.toNat * t.gasPrice.toNat + t.value.toNat⟩ ∧
        commit (w.ledger.balance sender) t.gasLimit t.gasPrice t.value
          (t.intrinsicCost x.machine.rules) =
            .ok (x'.commitment, t.gasLimit - .ofNat (t.intrinsicCost x.machine.rules))) := by
  rw [← t.intrinsicGas_eq] at ht
  have hv := x.machine.validate_eq_of_firstFailure w.ledger t
  refine ⟨acceptExact_eq w ht, ?_, ?_⟩
  · intro e hf
    rw [hf] at hv
    obtain ⟨r, hr, rfl⟩ := hv
    unfold accept
    rw [hx]
    dsimp only
    rw [hr]
    exact ⟨_, _, rfl, rfl, rfl, World.ledger_remarks _ _⟩
  · intro hf
    rw [hf] at hv
    obtain ⟨a, ha⟩ := hv
    obtain ⟨rfl, hadmits⟩ := Machine.admits_of_validate ha
    unfold accept
    rw [hx]
    dsimp only
    rw [ha]
    exact ⟨a.sender, _, _, hadmits.sender, rfl, rfl, w.ledger.countedOnly_bumpNonce a.sender,
      hadmits.commitment, commit_of_admits hadmits⟩

end Execution

/-- Account 7 cannot pay for this transaction, and it is not its turn either. -/
def Transaction.early : Transaction := { toSelf with nonce := 1, value := 50000 }

/-- Of two conditions that fail the first one tells. -/
theorem first_failure_tells :
    (∃ x' w', (Execution.new (.plain .failing) 0).accept .early World.plain =
        (.error (.rejected .invalidNonce), x', w') ∧ w'.ledger = World.plain.ledger) ∧
    ∃ sender x' w', Transaction.toSelf.sender = some sender ∧
      (Execution.new (.plain .failing) 0).accept .toSelf World.plain = (.ok (), x', w') ∧
      World.plain.ledger.CountedOnly w'.ledger sender ∧
      x'.commitment = ⟨30000, 30000, 30000⟩ := by
  let x : Execution := .new (.plain .failing) 0
  constructor
  · have hfirst : x.machine.firstFailure World.plain.ledger .early = some .invalidNonce := by
      decide
    obtain ⟨-, hrejects, -⟩ := Execution.acceptance_decides_conditions (x := x) rfl
      (t := .early) (by decide) World.plain
    obtain ⟨x', w', he, -, -, hl⟩ := hrejects _ hfirst
    exact ⟨x', w', he, hl⟩
  · have hfirst : x.machine.firstFailure World.plain.ledger .toSelf = none := by decide
    obtain ⟨-, -, haccepts⟩ := Execution.acceptance_decides_conditions (x := x) rfl
      (t := .toSelf) (by decide) World.plain
    obtain ⟨sender, x', w', hs, he, -, hcounted, hcommitment, -⟩ := haccepts hfirst
    exact ⟨sender, x', w', hs, he, hcounted, hcommitment⟩

end Transact
