import Transact.Quantity

/-!
The recursive length encoding of byte strings and of lists of them.
-/

namespace Transact

/-- The bytes of `n`, most significant first, without leading zeros. -/
def minimalBytes (n : Nat) : Bytes :=
  if n = 0 then [] else minimalBytes (n / 256) ++ [UInt8.ofNat (n % 256)]

/-- The last `width` bytes of `n`, most significant first. -/
def fixedBytes : Nat → Nat → Bytes
  | 0, _ => []
  | width + 1, n => fixedBytes width (n / 256) ++ [UInt8.ofNat (n % 256)]

/-- The number whose bytes are `bytes`, most significant first. -/
def natOfBytes (bytes : Bytes) : Nat :=
  bytes.foldl (fun n b => 256 * n + b.toNat) 0

@[simp] theorem length_fixedBytes (width n : Nat) : (fixedBytes width n).length = width := by
  induction width generalizing n with
  | zero => rfl
  | succ width ih => simp [fixedBytes, ih]

theorem natOfBytes_append_singleton (bytes : Bytes) (b : UInt8) :
    natOfBytes (bytes ++ [b]) = 256 * natOfBytes bytes + b.toNat := by
  simp [natOfBytes]

theorem natOfBytes_minimalBytes (n : Nat) : natOfBytes (minimalBytes n) = n := by
  fun_induction minimalBytes n with
  | case1 => rfl
  | case2 n _ ih =>
    rw [natOfBytes_append_singleton, ih, UInt8.toNat_ofNat']
    omega

namespace Rlp

/-- Announces `length` bytes; `base` tells strings from lists. -/
def header (base length : Nat) : Bytes :=
  if length < 56 then [UInt8.ofNat (base + length)]
  else
    let size := minimalBytes length
    UInt8.ofNat (base + 55 + size.length) :: size

/-- A single byte below `0x80` stands for itself. -/
def ofString (bytes : Bytes) : Bytes :=
  match bytes with
  | [b] => if b < 0x80 then [b] else header 0x80 1 ++ [b]
  | _ => header 0x80 bytes.length ++ bytes

def ofList (strings : List Bytes) : Bytes :=
  let payload := strings.flatMap ofString
  header 0xc0 payload.length ++ payload

end Rlp

end Transact
