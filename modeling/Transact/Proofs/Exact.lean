import Mathlib.Algebra.Group.Nat.Defs
import Transact.Acceptance

/-!
Costs, balances and block distances in checked arithmetic. Each operation here faults
where its result leaves the range, and each function is proved never to fault and to give
the same as its counterpart that stops at the bounds.
-/

namespace Transact

/-- What did not fault goes on. -/
theorem ok_bind {α γ : Type} (a : α) (f : α → Except Fault γ) : (Except.ok a >>= f) = f a := rfl

/-- The number, if it is below `bound`. -/
def fit (bound n : Nat) : Except Fault Nat := if n < bound then .ok n else .error .overflow

theorem fit_eq_ok {bound n : Nat} (h : n < bound) : fit bound n = .ok n := if_pos h

/-- The difference, unless it is negative. -/
def minus (n k : Nat) : Except Fault Nat := if k ≤ n then .ok (n - k) else .error .overflow

theorem minus_eq_ok {n k : Nat} (h : k ≤ n) : minus n k = .ok (n - k) := if_pos h

namespace Quantity

theorem most_eq : most = 2 ^ 256 - 1 := rfl

theorem toNat_lt (a : Quantity) : a.toNat < 2 ^ 256 := by
  have h := a.le_most
  rw [most_eq] at h
  omega

/-- The amount `n`, if there is one. -/
def ofExact (n : Nat) : Except Fault Quantity :=
  if h : n ≤ most then .ok ⟨n, h⟩ else .error .overflow

/-- The difference, unless it is negative. -/
def subExact (a b : Quantity) : Except Fault Quantity :=
  if b ≤ a then .ok (a - b) else .error .overflow

/-- The product, if it is an amount. -/
def mulExact (a b : Quantity) : Except Fault Quantity := ofExact (a.toNat * b.toNat)

theorem ofExact_eq_ok {n : Nat} (h : n ≤ most) : ofExact n = .ok (.ofNat n) := by
  unfold ofExact
  rw [dif_pos h]
  exact congrArg Except.ok (Quantity.ext (Nat.min_eq_left h).symm)

theorem subExact_eq_ok {a b : Quantity} (h : b ≤ a) : a.subExact b = .ok (a - b) := if_pos h

theorem sub_self (a : Quantity) : a - a = 0 := by
  ext
  rw [toNat_sub, Nat.sub_self, toNat_zero]

end Quantity

example : (0 : Quantity).subExact 1 = .error .overflow := by rfl

/-! Costs. -/

/-- `intrinsicGas` on 64 bits. -/
def intrinsicGasExact (r : Rules) (creation : Bool) (data : Bytes) : Except Fault Nat := do
  let zeros := data.count 0
  let others ← minus data.length zeros
  let zeroGas ← fit (2 ^ 64) (zeros * r.zeroByteGas)
  let base ← fit (2 ^ 64) ((if creation then r.createGas else r.callGas) + zeroGas)
  let otherGas ← fit (2 ^ 64) (others * r.nonzeroByteGas)
  fit (2 ^ 64) (base + otherGas)

theorem length_eq_zeros_add (data : Bytes) :
    data.length = data.count 0 + data.countP (· ≠ 0) := by
  have hsplit := List.length_eq_countP_add_countP (fun b : UInt8 => b == 0) (l := data)
  have hothers : data.countP (fun b => decide ¬(b == 0) = true) = data.countP (· ≠ 0) :=
    List.countP_congr (by simp)
  rw [hothers] at hsplit
  exact hsplit

theorem intrinsicGasExact_eq {r : Rules} {creation : Bool} {data : Bytes}
    (h : intrinsicGas r creation data < 2 ^ 64) :
    intrinsicGasExact r creation data = .ok (intrinsicGas r creation data) := by
  have hlength := length_eq_zeros_add data
  have hothers : data.length - data.count 0 = data.countP (· ≠ 0) := by omega
  unfold intrinsicGas at h ⊢
  unfold intrinsicGasExact
  dsimp only
  rw [minus_eq_ok (by omega), ok_bind, hothers]
  -- each partial result is at most the whole
  rw [fit_eq_ok (by omega), ok_bind, fit_eq_ok (by omega), ok_bind, fit_eq_ok (by omega), ok_bind]
  exact fit_eq_ok h

/-- `payIntrinsic` with a checked difference. -/
def payIntrinsicExact (gasLimit : Quantity) (intrinsic : Nat) :
    Except Fault (Except Exception Quantity) :=
  if gasLimit.toNat < intrinsic then .ok (.error .outOfGasIntrinsic)
  else do
    let intrinsic ← Quantity.ofExact intrinsic
    let gas ← gasLimit.subExact intrinsic
    return .ok gas

theorem payIntrinsicExact_eq (gasLimit : Quantity) (intrinsic : Nat) :
    payIntrinsicExact gasLimit intrinsic = .ok (payIntrinsic gasLimit intrinsic) := by
  unfold payIntrinsicExact payIntrinsic
  split
  · rfl
  · next hle =>
    have hmost := gasLimit.le_most
    have hsub : Quantity.ofNat intrinsic ≤ gasLimit := by
      rw [Quantity.le_def, Quantity.toNat_ofNat]
      omega
    rw [Quantity.ofExact_eq_ok (by omega), ok_bind, Quantity.subExact_eq_ok hsub]
    rfl

/-- `Commitment.ofAmounts` on 512 bits. -/
def Commitment.ofAmountsExact (gasLimit gasPrice value : Quantity) : Except Fault Commitment := do
  let fee ← fit (2 ^ 256 * 2 ^ 256) (gasLimit.toNat * gasPrice.toNat)
  let total ← fit (2 ^ 256 * 2 ^ 256) (fee + value.toNat)
  return ⟨gasLimit.toNat, fee, total⟩

theorem mul_add_lt {a b c n : Nat} (ha : a < n) (hb : b < n) (hc : c < n) :
    a * b + c < n * n := by
  obtain ⟨k, rfl⟩ : ∃ k, n = k + 1 := ⟨n - 1, by omega⟩
  have hab : a * b ≤ k * k := Nat.mul_le_mul (Nat.le_of_lt_succ ha) (Nat.le_of_lt_succ hb)
  have hsquare : (k + 1) * (k + 1) = k * k + k + k + 1 := by
    rw [Nat.mul_succ, Nat.succ_mul]
    omega
  omega

theorem Commitment.ofAmountsExact_eq (gasLimit gasPrice value : Quantity) :
    ofAmountsExact gasLimit gasPrice value = .ok (ofAmounts gasLimit gasPrice value) := by
  have htotal := mul_add_lt gasLimit.toNat_lt gasPrice.toNat_lt value.toNat_lt
  have hfee := Nat.lt_of_le_of_lt (Nat.le_add_right _ _) htotal
  unfold ofAmountsExact ofAmounts
  rw [fit_eq_ok hfee, ok_bind, fit_eq_ok htotal]
  rfl

/-- `depositCost` as an amount. -/
def depositCostExact (r : Rules) (size : Nat) : Except Fault Quantity := do
  let size ← Quantity.ofExact size
  let price ← Quantity.ofExact r.depositGas
  size.mulExact price

theorem depositCostExact_eq {r : Rules} (hr : r.depositGas < 2 ^ 64) {size : Nat}
    (hs : size < 2 ^ 64) : depositCostExact r size = .ok (.ofNat (depositCost r size)) := by
  have hmost : 2 ^ 64 * 2 ^ 64 ≤ Quantity.most := by decide
  have hcost : size * r.depositGas ≤ 2 ^ 64 * 2 ^ 64 :=
    Nat.mul_le_mul (Nat.le_of_lt hs) (Nat.le_of_lt hr)
  unfold depositCostExact Quantity.mulExact
  rw [Quantity.ofExact_eq_ok (by omega), ok_bind, Quantity.ofExact_eq_ok (by omega), ok_bind,
    Quantity.toNat_ofNat, Quantity.toNat_ofNat, Nat.min_eq_left (by omega),
    Nat.min_eq_left (by omega)]
  exact Quantity.ofExact_eq_ok (by omega)

/-- The sum of two amounts on 512 bits. -/
theorem fit_add (a b : Quantity) :
    fit (2 ^ 256 * 2 ^ 256) (a.toNat + b.toNat) = .ok (a.toNat + b.toNat) := by
  have ha := a.toNat_lt
  have hb := b.toNat_lt
  have hroom : 2 ^ 256 + 2 ^ 256 ≤ 2 ^ 256 * 2 ^ 256 := by decide
  exact fit_eq_ok (by omega)

/-! Acceptance. -/

/-- `Machine.validate` in checked arithmetic. -/
def Machine.validateExact {β : Type} [Store β] (m : Machine) (l : Ledger β) (t : Transaction) :
    Except Fault (Except Rejection Accepted) :=
  match t.sender with
  | none => .ok (.error (.plain .invalidSignature))
  | some sender => do
    let intrinsic ← intrinsicGasExact m.rules t.isCreation t.data
    match ← payIntrinsicExact t.gasLimit intrinsic with
    | .error e => return .error (.plain e)
    | .ok gas =>
      let nonce := l.nonce sender
      if nonce ≠ t.nonce then
        return .error ⟨.invalidNonce, some (.invalidNonce nonce t.nonce)⟩
      else
        let blockGas ← fit (2 ^ 256 * 2 ^ 256) (m.block.gasUsed.toNat + t.gasLimit.toNat)
        if m.block.gasLimit.toNat < blockGas then
          return .error ⟨.blockGasLimitReached,
            some (.blockGasReached m.block.gasUsed m.block.gasLimit t.gasLimit)⟩
        else
          let commitment ← Commitment.ofAmountsExact t.gasLimit t.gasPrice t.value
          match commitment.fund (l.balance sender) with
          | .error e => return .error (.plain e)
          | .ok commitment => return .ok ⟨t, sender, commitment, gas⟩

theorem Machine.validateExact_eq {β : Type} [Store β] {m : Machine} (l : Ledger β)
    {t : Transaction} (h : intrinsicGas m.rules t.isCreation t.data < 2 ^ 64) :
    m.validateExact l t = .ok (m.validate l t) := by
  unfold validateExact validate
  cases t.sender with
  | none => rfl
  | some sender =>
    dsimp only
    rw [intrinsicGasExact_eq h, ok_bind, payIntrinsicExact_eq, ok_bind]
    cases payIntrinsic t.gasLimit (intrinsicGas m.rules t.isCreation t.data) with
    | error e => rfl
    | ok gas =>
      dsimp only [Except.mapError, bind, Except.bind]
      split
      · rfl
      · rw [fit_add]
        dsimp only
        split
        · rfl
        · rw [Commitment.ofAmountsExact_eq]
          dsimp only
          cases (Commitment.ofAmounts t.gasLimit t.gasPrice t.value).fund (l.balance sender) <;>
            rfl

/-! The ledger. -/

namespace Ledger

variable {β : Type} [Store β] (l : Ledger β)

/-- `Ledger.debit` with a checked difference. -/
def debitExact (a : Address) (v : Quantity) : Except Fault (Except Exception (Ledger β)) :=
  if l.balance a < v then .ok (.error .notEnoughCash)
  else do
    let rest ← (l.balance a).subExact v
    return .ok (l.setBalance a rest)

/-- `Ledger.transfer` in checked arithmetic. -/
def transferExact (a target : Address) (v : Quantity) :
    Except Fault (Except Exception (Ledger β)) :=
  (l.debitExact a v).map fun paid => paid.map (·.credit target v)

/-- `Ledger.pay` in checked arithmetic. -/
def payExact (c : Context) : Except Fault (Except Exception (Ledger β)) :=
  l.transferExact c.caller c.address c.value

/-- `Ledger.perform` in checked arithmetic. -/
def performExact : Operation → Except Fault (Answer × Ledger β)
  | .debit a v => (l.debitExact a v).map l.attempt
  | .transfer source target v => (l.transferExact source target v).map l.attempt
  | op => .ok (l.perform op)

theorem debitExact_eq (a : Address) (v : Quantity) : l.debitExact a v = .ok (l.debit a v) := by
  unfold debitExact debit
  split
  · rfl
  · next h =>
    rw [Quantity.subExact_eq_ok (Nat.le_of_not_lt h)]
    rfl

theorem transferExact_eq (a target : Address) (v : Quantity) :
    l.transferExact a target v = .ok (l.transfer a target v) := by
  unfold transferExact
  rw [debitExact_eq]
  rfl

theorem payExact_eq (c : Context) : l.payExact c = .ok (l.pay c) :=
  l.transferExact_eq c.caller c.address c.value

theorem performExact_eq (op : Operation) : l.performExact op = .ok (l.perform op) := by
  cases op with
  | debit a v => exact congrArg (Except.map l.attempt) (l.debitExact_eq a v)
  | transfer source target v =>
    exact congrArg (Except.map l.attempt) (l.transferExact_eq source target v)
  | _ => rfl

end Ledger

/-! The block. -/

namespace Block

variable (b : Block) (number : Quantity)

/-- `Block.offsetOf` with checked differences, the offset on 64 bits. -/
def offsetExact : Except Fault (Option Nat) :=
  if b.number ≤ number then .ok none
  else do
    let distance ← b.number.subExact number
    if hashWindow < distance.toNat then return none
    else
      let distance ← b.number.subExact number
      let offset ← distance.subExact 1
      let offset ← fit (2 ^ 64) offset.toNat
      return some offset

theorem offsetExact_eq : b.offsetExact number = .ok (b.offsetOf number) := by
  unfold offsetExact offsetOf
  dsimp only
  by_cases hle : b.number ≤ number
  · have hzero : b.number.toNat - number.toNat = 0 := Nat.sub_eq_zero_of_le hle
    rw [if_pos hle, if_neg (by omega)]
  · have hlt : number.toNat < b.number.toNat := Nat.lt_of_not_le hle
    rw [if_neg hle, Quantity.subExact_eq_ok (Nat.le_of_lt hlt), ok_bind, ok_bind,
      Quantity.toNat_sub]
    by_cases hwindow : hashWindow < b.number.toNat - number.toNat
    · rw [if_pos hwindow, if_neg (by omega)]
      rfl
    · have hone : (1 : Quantity) ≤ b.number - number := by
        rw [Quantity.le_def, Quantity.toNat_sub, Quantity.toNat_one]
        omega
      have hoffset : (b.number - number - 1).toNat < 2 ^ 64 := by
        rw [Quantity.toNat_sub, Quantity.toNat_sub]
        unfold hashWindow at hwindow
        omega
      rw [if_neg hwindow, if_pos (by omega), Quantity.subExact_eq_ok hone, ok_bind,
        fit_eq_ok hoffset, Quantity.toNat_sub, Quantity.toNat_sub, Quantity.toNat_one]
      rfl

end Block

end Transact
