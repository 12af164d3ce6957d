import Mathlib.Data.List.DropRight
import Transact.Proofs.Exact
import Transact.Proofs.Reporting
import Transact.Rlp.Lemmas

/-!
Where contracts are placed. Creator and nonce can be told from the byte string whose digest
decides the address, so creations that differ in either meet at one address only if two
digests end alike. Main statement: `preimages_tell_creations_apart`.
-/

namespace Transact

theorem Address.toNat_lt (a : Address) : a.toNat < 256 ^ 20 := by
  have h := a.isLt
  omega

namespace Keccak

theorem length_digest (message : Bytes) : (digest message).length = 32 := by
  simp [digest, laneBytes]

/-- Two byte strings whose digests end in the same twenty bytes. -/
def Collide (message message' : Bytes) : Prop :=
  message ≠ message' ∧ (digest message).rtake 20 = (digest message').rtake 20

end Keccak

section Preimage

variable {creator creator' : Address} {nonce nonce' : Quantity}

theorem length_contractPayload_lt (creator : Address) (nonce : Quantity) :
    ([fixedBytes 20 creator.toNat, minimalBytes nonce.toNat].flatMap Rlp.ofString).length <
      256 ^ 8 := by
  -- twenty and at most thirty-two bytes, each behind a header of at most nine
  have hcreator := length_fixedBytes 20 creator.toNat
  have hbound := nonce.toNat_lt
  have hnonce := length_minimalBytes_le (n := nonce.toNat) (k := 32) (by omega)
  have hfirst := Rlp.length_ofString_le (s := fixedBytes 20 creator.toNat) (by omega)
  have hsecond := Rlp.length_ofString_le (s := minimalBytes nonce.toNat) (by omega)
  rw [List.flatMap_cons, List.flatMap_cons, List.flatMap_nil, List.length_append,
    List.append_nil]
  omega

theorem contractPreimage_inj :
    contractPreimage creator nonce = contractPreimage creator' nonce' ↔
      creator = creator' ∧ nonce = nonce' := by
  unfold contractPreimage
  rw [Rlp.ofList_inj (length_contractPayload_lt creator nonce)
      (length_contractPayload_lt creator' nonce'),
    List.cons.injEq, List.cons.injEq,
    fixedBytes_inj creator.toNat_lt creator'.toNat_lt,
    minimalBytes_inj, BitVec.toNat_inj, ← Quantity.ext_iff]
  simp

/-- Nonce zero, a nonce that is its own encoding, and one that has a header. -/
example :
    contractPreimage 7 0 = 0xd6 :: 0x94 :: (fixedBytes 20 7 ++ [0x80]) ∧
      contractPreimage 7 127 = 0xd6 :: 0x94 :: (fixedBytes 20 7 ++ [0x7f]) ∧
      contractPreimage 7 128 = 0xd7 :: 0x94 :: (fixedBytes 20 7 ++ [0x81, 0x80]) := by
  decide +kernel

/-- The bytes of an address are the last twenty of the digest. -/
theorem fixedBytes_contractAddress (creator : Address) (nonce : Quantity) :
    fixedBytes 20 (contractAddress creator nonce).toNat =
      (Keccak.digest (contractPreimage creator nonce)).rtake 20 := by
  unfold contractAddress
  generalize hd : Keccak.digest (contractPreimage creator nonce) = digest
  have hlength : digest.length = 32 := hd ▸ Keccak.length_digest _
  have hlast : (digest.rtake 20).length = 20 := by
    rw [List.rtake, List.length_drop, hlength]
  have hread := fixedBytes_natOfBytes_append (digest.rdrop 20) (digest.rtake 20)
  rw [hlast, List.rdrop, List.rtake, List.take_append_drop] at hread
  rw [BitVec.toNat_ofNat, List.rtake, ← hread]
  exact fixedBytes_mod 20 _

theorem contractAddress_eq_iff :
    contractAddress creator nonce = contractAddress creator' nonce' ↔
      creator = creator' ∧ nonce = nonce' ∨
        Keccak.Collide (contractPreimage creator nonce) (contractPreimage creator' nonce') := by
  have hdigests : contractAddress creator nonce = contractAddress creator' nonce' ↔
      (Keccak.digest (contractPreimage creator nonce)).rtake 20 =
        (Keccak.digest (contractPreimage creator' nonce')).rtake 20 := by
    rw [← fixedBytes_contractAddress, ← fixedBytes_contractAddress,
      fixedBytes_inj (Address.toNat_lt _) (Address.toNat_lt _), BitVec.toNat_inj]
  unfold Keccak.Collide
  rw [hdigests, Ne, contractPreimage_inj]
  constructor
  · intro h
    by_cases hsame : creator = creator' ∧ nonce = nonce'
    · exact .inl hsame
    · exact .inr ⟨hsame, h⟩
  · rintro (⟨rfl, rfl⟩ | ⟨-, h⟩)
    · rfl
    · exact h

end Preimage

/-- The creation `c`, begun on `w`, goes to `target`: so it is reported, its code is to run
there, and that is the new address unless it fails. -/
structure Machine.Places {β : Type} [Store β] (m : Machine) (d : Nat) (t : Terms) (c : Creation)
    (w : World β) (target : Address) : Prop where
  reported : w.Reported (m.begin d t (.create c) w).2
    [.create c.creator target c.endowment c.initCode c.gas d]
  pending : ∀ p w', m.begin d t (.create c) w = (.pending p, w') →
    p.context.address = target ∧ p.newAddress = some target
  done : ∀ o w', m.begin d t (.create c) w = (.done o, w') →
    o.newAddress = some target ∨ o.exception ≠ none ∧ o.newAddress = none

/-- A creation goes to the address of its creator's nonce, uncounted. -/
theorem Machine.places_begun {β : Type} [Store β] (m : Machine) (d : Nat) (t : Terms)
    (c : Creation) (w : World β) :
    m.Places d t c w (contractAddress c.creator (w.ledger.nonce c.creator - 1)) := by
  refine ⟨m.reported_begin d t (.create c) w, ?_, ?_⟩
  · intro p w' h
    obtain ⟨-, hr⟩ := begin_eq_pending h
    cases hr
    exact ⟨rfl, rfl⟩
  · intro o w' h
    obtain ⟨-, hr⟩ | ⟨-, hr⟩ := begin_eq_done h
    · cases hr
      exact .inr ⟨nofun, rfl⟩
    · cases hr with
      | unpaid => exact .inr ⟨nofun, rfl⟩
      | idle => exact .inl rfl

/-- The byte string whose digest decides an address tells creator and nonce. So two addresses
are equal just if creators and nonces are, or if different byte strings have digests that end
alike. That goes for any two creations, wherever they are begun. -/
theorem preimages_tell_creations_apart {β β' : Type} [Store β] [Store β'] :
    (∀ (creator creator' : Address) (nonce nonce' : Quantity),
      (contractPreimage creator nonce = contractPreimage creator' nonce' ↔
        creator = creator' ∧ nonce = nonce') ∧
      (contractAddress creator nonce = contractAddress creator' nonce' ↔
        creator = creator' ∧ nonce = nonce' ∨
          Keccak.Collide (contractPreimage creator nonce) (contractPreimage creator' nonce'))) ∧
    ∀ (m m' : Machine) (d d' : Nat) (t t' : Terms) (c c' : Creation) (w : World β) (w' : World β'),
      ∃ nonce nonce' target target', nonce = w.ledger.nonce c.creator - 1 ∧
        nonce' = w'.ledger.nonce c'.creator - 1 ∧ m.Places d t c w target ∧
        m'.Places d' t' c' w' target' ∧
        (target = target' ↔ c.creator = c'.creator ∧ nonce = nonce' ∨
          Keccak.Collide (contractPreimage c.creator nonce)
            (contractPreimage c'.creator nonce')) := by
  refine ⟨fun _ _ _ _ => ⟨contractPreimage_inj, contractAddress_eq_iff⟩, ?_⟩
  intro m m' d d' t t' c c' w w'
  exact ⟨_, _, _, _, rfl, rfl, m.places_begun d t c w, m'.places_begun d' t' c' w',
    contractAddress_eq_iff⟩

end Transact
