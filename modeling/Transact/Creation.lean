import Transact.Keccak
import Transact.Rlp

/-!
Where a new contract is placed: the address is decided by who creates it and by
the creator's nonce at that moment.
-/

namespace Transact

/-- The byte string whose digest decides the address. -/
def contractPreimage (creator : Address) (nonce : Quantity) : Bytes :=
  Rlp.ofList [fixedBytes 20 creator.toNat, minimalBytes nonce.toNat]

/-- The last twenty bytes of the digest. -/
def contractAddress (creator : Address) (nonce : Quantity) : Address :=
  BitVec.ofNat 160 (natOfBytes (Keccak.digest (contractPreimage creator nonce)))

end Transact
