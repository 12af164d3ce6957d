import Mathlib.Algebra.Group.Nat.Defs
import Mathlib.Data.List.Induction
import Transact.Rlp

/-!
What the bytes of numbers, strings and lists tell. A header is inverted once
(`Rlp.Announces`), and the encodings are taken apart with it from the front. Main statements:
`fixedBytes_inj` and `minimalBytes_inj` for numbers, `Rlp.ofString_append_inj` for strings
and `Rlp.ofList_inj` for lists.
-/

namespace Transact

theorem natOfBytes_fixedBytes (width n : Nat) :
    natOfBytes (fixedBytes width n) = n % 256 ^ width := by
  induction width generalizing n with
  | zero => rw [Nat.pow_zero, Nat.mod_one]; rfl
  | succ width ih =>
    have hsplit : n % 256 ^ (width + 1) = n % 256 + 256 * (n / 256 % 256 ^ width) := by
      rw [Nat.pow_succ', Nat.mod_mul]
    rw [fixedBytes, natOfBytes_append_singleton, ih, UInt8.toNat_ofNat', hsplit]
    omega

theorem fixedBytes_inj {width m n : Nat} (hm : m < 256 ^ width) (hn : n < 256 ^ width) :
    fixedBytes width m = fixedBytes width n ↔ m = n := by
  refine ⟨fun h => ?_, fun h => by rw [h]⟩
  have hread := congrArg natOfBytes h
  rwa [natOfBytes_fixedBytes, natOfBytes_fixedBytes, Nat.mod_eq_of_lt hm,
    Nat.mod_eq_of_lt hn] at hread

theorem fixedBytes_mod (width n : Nat) :
    fixedBytes width (n % 256 ^ width) = fixedBytes width n := by
  induction width generalizing n with
  | zero => rfl
  | succ width ih =>
    have hlast : n % 256 ^ (width + 1) % 256 = n % 256 := by
      rw [Nat.pow_succ, Nat.mod_mul_left_mod]
    rw [fixedBytes, fixedBytes, hlast, Nat.pow_succ, Nat.mod_mul_left_div_self, ih]

/-- A byte string that is read as a number can be written again, from any place on. -/
theorem fixedBytes_natOfBytes_append (front back : Bytes) :
    fixedBytes back.length (natOfBytes (front ++ back)) = back := by
  induction back using List.reverseRecOn with
  | nil => rfl
  | append_singleton back b ih =>
    have hb := b.toNat_lt
    have hhigh : (256 * natOfBytes (front ++ back) + b.toNat) / 256 =
        natOfBytes (front ++ back) := by omega
    have hlow : (256 * natOfBytes (front ++ back) + b.toNat) % 256 = b.toNat := by omega
    rw [List.length_append, List.length_singleton, fixedBytes, ← List.append_assoc,
      natOfBytes_append_singleton, hhigh, hlow, ih, UInt8.ofNat_toNat]

theorem minimalBytes_inj {m n : Nat} : minimalBytes m = minimalBytes n ↔ m = n := by
  refine ⟨fun h => ?_, fun h => by rw [h]⟩
  rw [← natOfBytes_minimalBytes m, h, natOfBytes_minimalBytes]

theorem length_minimalBytes_pos {n : Nat} (h : 0 < n) : 0 < (minimalBytes n).length := by
  rw [minimalBytes, if_neg (Nat.ne_of_gt h), List.length_append, List.length_singleton]
  omega

theorem length_minimalBytes_le {n k : Nat} (h : n < 256 ^ k) : (minimalBytes n).length ≤ k := by
  induction k generalizing n with
  | zero =>
    have hzero : n = 0 := by rw [Nat.pow_zero] at h; omega
    rw [hzero, minimalBytes, if_pos rfl]
    exact Nat.le_refl 0
  | succ k ih =>
    rw [minimalBytes]
    split
    · exact Nat.zero_le _
    · rw [List.length_append, List.length_singleton]
      exact Nat.succ_le_succ (ih (Nat.div_lt_of_lt_mul (by rwa [Nat.pow_succ'] at h)))

namespace Rlp

/-- The two forms of a header for `length` bytes: the length stands in the first byte, or
the first byte tells how many bytes the length takes. -/
inductive Announces (base length : Nat) : UInt8 → Bytes → Prop
  | short {b : UInt8} (h : length < 56) (hb : b.toNat = base + length) : Announces base length b []
  | long {b : UInt8} (h : 56 ≤ length) (hb : b.toNat = base + 55 + (minimalBytes length).length)
      (hsize : (minimalBytes length).length ≤ 8) : Announces base length b (minimalBytes length)

section Header

variable {base length : Nat}

/-- A length of at most eight bytes can be announced. -/
theorem announces_header (hbase : base ≤ 0xc0) (h : length < 256 ^ 8) :
    ∃ b size, header base length = b :: size ∧ Announces base length b size := by
  unfold header
  split
  · next hshort =>
    refine ⟨_, _, rfl, .short hshort ?_⟩
    rw [UInt8.toNat_ofNat']
    omega
  · next hlong =>
    have hsize := length_minimalBytes_le h
    refine ⟨_, _, rfl, .long (by omega) ?_ hsize⟩
    rw [UInt8.toNat_ofNat']
    omega

variable {b : UInt8} {size : Bytes}

theorem Announces.base_le (h : Announces base length b size) : base ≤ b.toNat := by
  cases h <;> omega

theorem Announces.length_le (h : Announces base length b size) : size.length ≤ 8 := by
  cases h with
  | short => exact Nat.zero_le 8
  | long _ _ hsize => exact hsize

/-- The first byte tells where the header ends. -/
theorem Announces.append_inj {length' : Nat} {size' rest rest' : Bytes}
    (h : Announces base length b size) (h' : Announces base length' b size')
    (he : size ++ rest = size' ++ rest') : length = length' ∧ rest = rest' := by
  -- a length in the first byte is below 56, and more than 55 there announces a size
  cases h with
  | short hshort hb =>
    cases h' with
    | short _ hb' => exact ⟨by omega, he⟩
    | long hlong' hb' =>
      have hpos := length_minimalBytes_pos (n := length') (by omega)
      omega
  | long hlong hb =>
    cases h' with
    | short hshort' hb' =>
      have hpos := length_minimalBytes_pos (n := length) (by omega)
      omega
    | long _ hb' =>
      obtain ⟨hsize, hrest⟩ := List.append_inj he (by omega)
      exact ⟨minimalBytes_inj.mp hsize, hrest⟩

end Header

/-- A header can be told from what follows it. -/
theorem header_append_inj {base length length' : Nat} {rest rest' : Bytes} (hbase : base ≤ 0xc0)
    (hl : length < 256 ^ 8) (hl' : length' < 256 ^ 8)
    (h : header base length ++ rest = header base length' ++ rest') :
    length = length' ∧ rest = rest' := by
  obtain ⟨b, size, he, hh⟩ := announces_header hbase hl
  obtain ⟨b', size', he', hh'⟩ := announces_header hbase hl'
  rw [he, he', List.cons_append, List.cons_append] at h
  obtain ⟨rfl, hsize⟩ := List.cons.inj h
  exact hh.append_inj hh' hsize

theorem length_header_le {base length : Nat} (hbase : base ≤ 0xc0) (h : length < 256 ^ 8) :
    (header base length).length ≤ 9 := by
  obtain ⟨b, size, he, hh⟩ := announces_header hbase h
  rw [he, List.length_cons]
  exact Nat.succ_le_succ hh.length_le

theorem header_ne_nil (base length : Nat) : header base length ≠ [] := by
  unfold header
  split
  · exact List.cons_ne_nil _ _
  · exact List.cons_ne_nil _ _

/-- A small byte stands for itself, all else has a header. -/
theorem ofString_eq (s : Bytes) :
    (∃ b, b.toNat < 0x80 ∧ s = [b] ∧ ofString s = [b]) ∨
      ofString s = header 0x80 s.length ++ s := by
  unfold ofString
  split
  · next b =>
    split
    · next h => exact .inl ⟨b, UInt8.lt_iff_toNat_lt.mp h, rfl, rfl⟩
    · exact .inr rfl
  · exact .inr rfl

theorem ofString_ne_nil (s : Bytes) : ofString s ≠ [] := by
  obtain ⟨b, -, -, he⟩ | he := ofString_eq s
  · rw [he]
    exact List.cons_ne_nil b []
  · rw [he]
    exact List.append_ne_nil_of_left_ne_nil (header_ne_nil _ _) s

theorem length_le_length_ofString (s : Bytes) : s.length ≤ (ofString s).length := by
  obtain ⟨b, -, rfl, he⟩ | he := ofString_eq s
  · exact Nat.le_of_eq (congrArg List.length he.symm)
  · rw [he, List.length_append]
    exact Nat.le_add_left _ _

theorem length_ofString_le {s : Bytes} (h : s.length < 256 ^ 8) :
    (ofString s).length ≤ s.length + 9 := by
  obtain ⟨b, -, rfl, he⟩ | he := ofString_eq s
  · rw [he]
    exact Nat.le_add_right _ 9
  · have hheader : (header 0x80 s.length).length ≤ 9 := length_header_le (by omega) h
    rw [he, List.length_append]
    omega

/-- A byte that stands for itself begins no header. -/
theorem header_append_ne_cons {length : Nat} (hl : length < 256 ^ 8) {b : UInt8}
    (hb : b.toNat < 0x80) (rest rest' : Bytes) :
    header 0x80 length ++ rest ≠ b :: rest' := by
  intro h
  obtain ⟨b', size, he, hh⟩ := announces_header (show 0x80 ≤ 0xc0 by omega) hl
  rw [he, List.cons_append] at h
  obtain ⟨rfl, -⟩ := List.cons.inj h
  have hbase := hh.base_le
  omega

/-- An encoded string can be told from what follows it. -/
theorem ofString_append_inj {s s' rest rest' : Bytes} (hs : s.length < 256 ^ 8)
    (hs' : s'.length < 256 ^ 8) (h : ofString s ++ rest = ofString s' ++ rest') :
    s = s' ∧ rest = rest' := by
  obtain ⟨b, hb, rfl, he⟩ | he := ofString_eq s
  · obtain ⟨b', -, rfl, he'⟩ | he' := ofString_eq s'
    · rw [he, he'] at h
      obtain ⟨rfl, hrest⟩ := List.cons.inj h
      exact ⟨rfl, hrest⟩
    · rw [he, he', List.append_assoc] at h
      exact absurd h.symm (header_append_ne_cons hs' hb _ _)
  · obtain ⟨b', hb', rfl, he'⟩ | he' := ofString_eq s'
    · rw [he, he', List.append_assoc] at h
      exact absurd h (header_append_ne_cons hs hb' _ _)
    · rw [he, he', List.append_assoc, List.append_assoc] at h
      obtain ⟨hlength, hrest⟩ := header_append_inj (by omega) hs hs' h
      exact List.append_inj hrest hlength

/-- A row of encoded strings is taken apart from the front. -/
theorem flatMap_ofString_inj {ss ss' : List Bytes} (hl : (ss.flatMap ofString).length < 256 ^ 8)
    (h : ss.flatMap ofString = ss'.flatMap ofString) : ss = ss' := by
  induction ss generalizing ss' with
  | nil =>
    cases ss' with
    | nil => rfl
    | cons s' ss' =>
      rw [List.flatMap_nil, List.flatMap_cons] at h
      exact absurd (List.append_eq_nil_iff.mp h.symm).1 (ofString_ne_nil s')
  | cons s ss ih =>
    cases ss' with
    | nil =>
      rw [List.flatMap_nil, List.flatMap_cons] at h
      exact absurd (List.append_eq_nil_iff.mp h).1 (ofString_ne_nil s)
    | cons s' ss' =>
      -- each string is shorter than the whole, which can be announced
      have hl' := hl
      rw [h] at hl'
      rw [List.flatMap_cons, List.length_append] at hl hl'
      rw [List.flatMap_cons, List.flatMap_cons] at h
      have hs := length_le_length_ofString s
      have hs' := length_le_length_ofString s'
      obtain ⟨rfl, hrest⟩ := ofString_append_inj (by omega) (by omega) h
      rw [ih (by omega) hrest]

theorem ofList_inj {ss ss' : List Bytes} (hl : (ss.flatMap ofString).length < 256 ^ 8)
    (hl' : (ss'.flatMap ofString).length < 256 ^ 8) : ofList ss = ofList ss' ↔ ss = ss' := by
  refine ⟨fun h => ?_, fun h => by rw [h]⟩
  exact flatMap_ofString_inj hl (header_append_inj (Nat.le_refl _) hl hl' h).2

end Rlp

end Transact
