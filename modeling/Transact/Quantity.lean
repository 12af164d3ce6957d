/-!
Amounts of ether and gas, addresses, storage words and byte strings.

An amount is a natural number below `2 ^ 256`, and its arithmetic stays in that
range by stopping at either end. `addExact` and `divExact` refuse to
answer where stopping would give a wrong amount.
-/

namespace Transact

abbrev Address := BitVec 160

abbrev Word := BitVec 256

instance : Std.TransOrd Address := BitVec.instTransOrd
instance : Std.LawfulEqOrd Address := BitVec.instLawfulEqOrd
instance : Std.TransOrd Word := BitVec.instTransOrd
instance : Std.LawfulEqOrd Word := BitVec.instLawfulEqOrd

abbrev Bytes := List UInt8

/-- Arithmetic that has no answer. -/
inductive Fault
  | overflow
  | divisionByZero
  deriving DecidableEq, Repr

def Fault.message : Fault → String
  | .overflow => "arithmetic operation overflow"
  | .divisionByZero => "division by zero"

/-- The largest amount. -/
def Quantity.most : Nat :=
  0xffffffffffffffffffffffffffffffffffffffffffffffffffffffffffffffff

@[ext] structure Quantity where
  toNat : Nat
  le_most : toNat ≤ Quantity.most
  deriving DecidableEq

namespace Quantity

/-- The amount nearest to `n`. -/
def ofNat (n : Nat) : Quantity := ⟨min n most, Nat.min_le_right n most⟩

instance (n : Nat) : OfNat Quantity n := ⟨ofNat n⟩
instance : Inhabited Quantity := ⟨0⟩
instance : LE Quantity := ⟨fun a b => a.toNat ≤ b.toNat⟩
instance : LT Quantity := ⟨fun a b => a.toNat < b.toNat⟩
instance : Add Quantity := ⟨fun a b => ofNat (a.toNat + b.toNat)⟩
instance : Sub Quantity := ⟨fun a b => ofNat (a.toNat - b.toNat)⟩
instance : Mul Quantity := ⟨fun a b => ofNat (a.toNat * b.toNat)⟩
instance : Min Quantity := ⟨fun a b => if a.toNat ≤ b.toNat then a else b⟩
instance : ToString Quantity := ⟨fun a => toString a.toNat⟩

theorem le_def {a b : Quantity} : a ≤ b ↔ a.toNat ≤ b.toNat := Iff.rfl
theorem lt_def {a b : Quantity} : a < b ↔ a.toNat < b.toNat := Iff.rfl

instance (a b : Quantity) : Decidable (a ≤ b) := decidable_of_iff _ le_def.symm
instance (a b : Quantity) : Decidable (a < b) := decidable_of_iff _ lt_def.symm

@[simp] theorem toNat_ofNat (n : Nat) : (ofNat n).toNat = min n most := rfl

@[simp] theorem toNat_zero : (0 : Quantity).toNat = 0 := rfl

@[simp] theorem toNat_one : (1 : Quantity).toNat = 1 := rfl

theorem toNat_add (a b : Quantity) : (a + b).toNat = min (a.toNat + b.toNat) most := rfl

@[simp] theorem add_zero (a : Quantity) : a + 0 = a := Quantity.ext (Nat.min_eq_left a.le_most)

theorem toNat_mul (a b : Quantity) : (a * b).toNat = min (a.toNat * b.toNat) most := rfl

@[simp] theorem toNat_sub (a b : Quantity) : (a - b).toNat = a.toNat - b.toNat := by
  have h := a.le_most
  change min (a.toNat - b.toNat) most = _
  omega

@[simp] theorem toNat_min (a b : Quantity) : (min a b).toNat = min a.toNat b.toNat := by
  change (if a.toNat ≤ b.toNat then a else b).toNat = _
  split <;> omega

/-- The sum, if it is an amount. -/
def addExact (a b : Quantity) : Except Fault Quantity :=
  if h : a.toNat + b.toNat ≤ most then .ok ⟨a.toNat + b.toNat, h⟩ else .error .overflow

/-- The quotient rounded down, if there is one. -/
def divExact (a : Quantity) (n : Nat) : Except Fault Quantity :=
  if n = 0 then .error .divisionByZero
  else .ok ⟨a.toNat / n, Nat.le_trans (Nat.div_le_self a.toNat n) a.le_most⟩

end Quantity

end Transact
