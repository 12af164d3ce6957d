import Transact.Quantity

/-!
The Keccak-256 digest: the sponge over Keccak-f[1600] with a rate of 136 bytes
and the padding byte `0x01`.
-/

namespace Transact.Keccak

/-- Lane `(x, y)` stands at position `x + 5 * y`. -/
abbrev Lanes := Vector UInt64 25

def lane (a : Lanes) (x y : Nat) : UInt64 :=
  a[x % 5 + 5 * (y % 5)]

/-- `f x y` for each lane `(x, y)`. -/
def tabulate (f : Nat → Nat → UInt64) : Lanes :=
  Vector.ofFn fun i : Fin 25 => f (i.val % 5) (i.val / 5)

def rotate (x : UInt64) (n : Nat) : UInt64 :=
  if n % 64 = 0 then x
  else x <<< UInt64.ofNat (n % 64) ||| x >>> UInt64.ofNat (64 - n % 64)

/-- How far lane `x + 5 * y` turns. -/
def rotations : Vector Nat 25 :=
  #v[0, 1, 62, 28, 27, 36, 44, 6, 55, 20, 3, 10, 43, 25, 39, 41, 45, 15, 21, 8, 18, 2, 61, 56, 14]

def roundConstants : List UInt64 :=
  [0x0000000000000001, 0x0000000000008082, 0x800000000000808a, 0x8000000080008000,
    0x000000000000808b, 0x0000000080000001, 0x8000000080008081, 0x8000000000008009,
    0x000000000000008a, 0x0000000000000088, 0x0000000080008009, 0x000000008000000a,
    0x000000008000808b, 0x800000000000008b, 0x8000000000008089, 0x8000000000008003,
    0x8000000000008002, 0x8000000000000080, 0x000000000000800a, 0x800000008000000a,
    0x8000000080008081, 0x8000000000008080, 0x0000000080000001, 0x8000000080008008]

def column (a : Lanes) (x : Nat) : UInt64 :=
  lane a x 0 ^^^ lane a x 1 ^^^ lane a x 2 ^^^ lane a x 3 ^^^ lane a x 4

def theta (a : Lanes) : Lanes :=
  let columns := Vector.ofFn fun i : Fin 5 => column a i.val
  let parity := fun x => columns[x % 5]
  tabulate fun x y => lane a x y ^^^ parity (x + 4) ^^^ rotate (parity (x + 1)) 1

/-- Turns each lane and moves lane `(x, y)` to `(y, 2 * x + 3 * y)`. -/
def rhoPi (a : Lanes) : Lanes :=
  tabulate fun x y =>
    let u := (x + 3 * y) % 5
    rotate (lane a u x) (rotations[u + 5 * (x % 5)])

def chi (a : Lanes) : Lanes :=
  tabulate fun x y => lane a x y ^^^ (~~~ lane a (x + 1) y &&& lane a (x + 2) y)

def iota (constant : UInt64) (a : Lanes) : Lanes :=
  tabulate fun x y => if x = 0 ∧ y = 0 then lane a 0 0 ^^^ constant else lane a x y

def permute (a : Lanes) : Lanes :=
  roundConstants.foldl (fun a constant => iota constant (chi (rhoPi (theta a)))) a

def rate : Nat := 136

/-- The message up to a whole number of blocks: the bit after its last byte and
the last bit of the last block are set. -/
def pad (message : Bytes) : Bytes :=
  let short := rate - message.length % rate
  if short = 1 then message ++ [0x81]
  else message ++ 0x01 :: (List.replicate (short - 2) 0 ++ [0x80])

/-- The lane whose least significant byte comes first in `bytes`. -/
def laneOfBytes (bytes : Bytes) : UInt64 :=
  bytes.foldr (fun b n => n <<< 8 ||| b.toUInt64) 0

def laneBytes (x : UInt64) : Bytes :=
  (List.range 8).map fun i => (x >>> UInt64.ofNat (8 * i)).toUInt8

def absorbBlock (a : Lanes) (block : Bytes) : Lanes :=
  permute <| tabulate fun x y =>
    lane a x y ^^^ laneOfBytes ((block.drop (8 * (x + 5 * y))).take 8)

def absorb (a : Lanes) (padded : Bytes) : Lanes :=
  if padded.length = 0 then a
  else absorb (absorbBlock a (padded.take rate)) (padded.drop rate)
termination_by padded.length
decreasing_by simp [rate]; omega

/-- The 32 bytes of the digest. -/
def digest (message : Bytes) : Bytes :=
  let a := absorb (tabulate fun _ _ => 0) (pad message)
  (List.range 4).flatMap fun x => laneBytes (lane a x 0)

end Transact.Keccak
