import Transact.Quantity

/-!
Hexadecimal text, lower case, and fields aligned to the right.
-/

namespace Transact.Hex

def digit (n : Nat) : Char := "0123456789abcdef".toList.getD n '0'

/-- The last `width` hexadecimal digits of `n`. -/
def digits : Nat → Nat → List Char
  | 0, _ => []
  | width + 1, n => digits width (n / 16) ++ [digit (n % 16)]

@[simp] theorem length_digits (width n : Nat) : (digits width n).length = width := by
  induction width generalizing n with
  | zero => rfl
  | succ width ih => simp [digits, ih]

def ofNat (width n : Nat) : String := "0x" ++ String.ofList (digits width n)

def ofBitVec {w : Nat} (x : BitVec w) : String := ofNat (w / 4) x.toNat

def ofBytes (bytes : Bytes) : String :=
  "0x" ++ String.ofList (bytes.flatMap fun b => digits 2 b.toNat)

/-- Blanks in front of `text` up to `width` characters. -/
def padLeft (width : Nat) (text : String) : String :=
  String.ofList (List.replicate (width - text.length) ' ') ++ text

end Transact.Hex
