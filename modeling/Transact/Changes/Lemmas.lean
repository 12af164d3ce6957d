import Transact.Changes

/-!
What a change set tells after each operation. Main statements: the `andThen`
laws, by which the later change set is asked first.
-/

namespace Transact.Changes

open Std (ExtTreeMap ExtTreeSet)

variable (c d : Changes) (a b : Address) (i j v : Word) (q : Quantity) (code : Bytes)

theorem empty_def : (∅ : Changes) = ⟨∅, ∅, ∅, ∅, ∅, ∅⟩ := rfl

@[simp] theorem balance?_empty : (∅ : Changes).balance? a = none := by
  simp [balance?, empty_def]

@[simp] theorem nonce?_empty : (∅ : Changes).nonce? a = none := by
  simp [nonce?, empty_def]

@[simp] theorem code?_empty : (∅ : Changes).code? a = none := by
  simp [code?, empty_def]

@[simp] theorem storage?_empty : (∅ : Changes).storage? a i = none := by
  simp [storage?, empty_def]

@[simp] theorem present?_empty : (∅ : Changes).present? a = none := by
  simp [present?, empty_def]

/-! A write shows in what it wrote, and in the presence of the account unless it
was to the storage. -/

theorem balance?_setBalance :
    (c.setBalance a q).balance? b = if a = b then some q else c.balance? b := by
  by_cases h : a = b
  · simp [balance?, setBalance, h]
  · simp [balance?, setBalance, ExtTreeMap.getElem?_insert, h]
    rfl

@[simp] theorem nonce?_setBalance : (c.setBalance a q).nonce? b = c.nonce? b := rfl

@[simp] theorem code?_setBalance : (c.setBalance a q).code? b = c.code? b := rfl

@[simp] theorem storage?_setBalance : (c.setBalance a q).storage? b i = c.storage? b i := rfl

theorem present?_setBalance :
    (c.setBalance a q).present? b = if a = b then some true else c.present? b := by
  by_cases h : a = b
  · simp [present?, setBalance, h]
  · simp [present?, setBalance, h]
    rfl

theorem nonce?_setNonce :
    (c.setNonce a q).nonce? b = if a = b then some q else c.nonce? b := by
  by_cases h : a = b
  · simp [nonce?, setNonce, h]
  · simp [nonce?, setNonce, ExtTreeMap.getElem?_insert, h]
    rfl

@[simp] theorem balance?_setNonce : (c.setNonce a q).balance? b = c.balance? b := rfl

@[simp] theorem code?_setNonce : (c.setNonce a q).code? b = c.code? b := rfl

@[simp] theorem storage?_setNonce : (c.setNonce a q).storage? b i = c.storage? b i := rfl

theorem present?_setNonce :
    (c.setNonce a q).present? b = if a = b then some true else c.present? b := by
  by_cases h : a = b
  · simp [present?, setNonce, h]
  · simp [present?, setNonce, h]
    rfl

theorem code?_setCode :
    (c.setCode a code).code? b = if a = b then some code else c.code? b := by
  by_cases h : a = b
  · simp [code?, setCode, h]
  · simp [code?, setCode, ExtTreeMap.getElem?_insert, h]
    rfl

@[simp] theorem balance?_setCode : (c.setCode a code).balance? b = c.balance? b := rfl

@[simp] theorem nonce?_setCode : (c.setCode a code).nonce? b = c.nonce? b := rfl

@[simp] theorem storage?_setCode : (c.setCode a code).storage? b i = c.storage? b i := rfl

theorem present?_setCode :
    (c.setCode a code).present? b = if a = b then some true else c.present? b := by
  by_cases h : a = b
  · simp [present?, setCode, h]
  · simp [present?, setCode, h]
    rfl

theorem storage?_setStorage :
    (c.setStorage a i v).storage? b j = if a = b ∧ i = j then some v else c.storage? b j := by
  by_cases h : a = b ∧ i = j
  · simp [storage?, setStorage, h]
  · simp [storage?, setStorage, ExtTreeMap.getElem?_insert, h]
    rfl

@[simp] theorem balance?_setStorage : (c.setStorage a i v).balance? b = c.balance? b := rfl

@[simp] theorem nonce?_setStorage : (c.setStorage a i v).nonce? b = c.nonce? b := rfl

@[simp] theorem code?_setStorage : (c.setStorage a i v).code? b = c.code? b := rfl

@[simp] theorem present?_setStorage : (c.setStorage a i v).present? b = c.present? b := rfl

theorem storage?_wipeStorage :
    (c.wipeStorage a).storage? b i = if a = b then some 0 else c.storage? b i := by
  simp only [storage?, wipeStorage, ExtTreeMap.getElem?_filter', ExtTreeSet.mem_insert,
    Std.compare_eq_iff_eq]
  by_cases h : a = b
  · simp [h]
  · cases c.words[(⟨b, i⟩ : Slot)]? <;> simp [h, Ne.symm h]

@[simp] theorem balance?_wipeStorage : (c.wipeStorage a).balance? b = c.balance? b := rfl

@[simp] theorem nonce?_wipeStorage : (c.wipeStorage a).nonce? b = c.nonce? b := rfl

@[simp] theorem code?_wipeStorage : (c.wipeStorage a).code? b = c.code? b := rfl

@[simp] theorem present?_wipeStorage : (c.wipeStorage a).present? b = c.present? b := rfl

theorem balance?_delete :
    (c.delete a).balance? b = if a = b then some 0 else c.balance? b := by
  by_cases h : a = b <;> simp [balance?, delete, ExtTreeMap.getElem?_erase, h]

theorem nonce?_delete : (c.delete a).nonce? b = if a = b then some 0 else c.nonce? b := by
  by_cases h : a = b <;> simp [nonce?, delete, ExtTreeMap.getElem?_erase, h]

theorem code?_delete : (c.delete a).code? b = if a = b then some [] else c.code? b := by
  by_cases h : a = b <;> simp [code?, delete, ExtTreeMap.getElem?_erase, h]

theorem storage?_delete :
    (c.delete a).storage? b i = if a = b then some 0 else c.storage? b i := by
  simp only [storage?, delete, ExtTreeMap.getElem?_filter', ExtTreeSet.mem_insert,
    ExtTreeSet.mem_erase, Std.compare_eq_iff_eq]
  by_cases h : a = b
  · simp [h]
  · cases c.words[(⟨b, i⟩ : Slot)]? <;> simp [h, Ne.symm h]

theorem present?_delete :
    (c.delete a).present? b = if a = b then some false else c.present? b := by
  by_cases h : a = b <;> simp [present?, delete, h]

/-! One change set after the other. -/

theorem mem_deleted_andThen : a ∈ (c.andThen d).deleted ↔ a ∈ c.deleted ∨ a ∈ d.deleted := by
  simp [andThen]

theorem mem_balances_andThen :
    a ∈ (c.andThen d).balances ↔ a ∈ d.balances ∨ a ∈ c.balances ∧ a ∉ d.deleted := by
  simp only [andThen, ExtTreeMap.mem_union_iff, ExtTreeMap.mem_filter]
  simp [or_comm]

theorem mem_nonces_andThen :
    a ∈ (c.andThen d).nonces ↔ a ∈ d.nonces ∨ a ∈ c.nonces ∧ a ∉ d.deleted := by
  simp only [andThen, ExtTreeMap.mem_union_iff, ExtTreeMap.mem_filter]
  simp [or_comm]

theorem mem_codes_andThen :
    a ∈ (c.andThen d).codes ↔ a ∈ d.codes ∨ a ∈ c.codes ∧ a ∉ d.deleted := by
  simp only [andThen, ExtTreeMap.mem_union_iff, ExtTreeMap.mem_filter]
  simp [or_comm]

theorem balance?_andThen : (c.andThen d).balance? a = (d.balance? a).or (c.balance? a) := by
  simp only [balance?, mem_deleted_andThen]
  simp only [andThen, ExtTreeMap.getElem?_union, ExtTreeMap.getElem?_filter']
  cases d.balances[a]? <;> cases c.balances[a]? <;> by_cases h : a ∈ d.deleted <;> simp [h]

theorem nonce?_andThen : (c.andThen d).nonce? a = (d.nonce? a).or (c.nonce? a) := by
  simp only [nonce?, mem_deleted_andThen]
  simp only [andThen, ExtTreeMap.getElem?_union, ExtTreeMap.getElem?_filter']
  cases d.nonces[a]? <;> cases c.nonces[a]? <;> by_cases h : a ∈ d.deleted <;> simp [h]

theorem code?_andThen : (c.andThen d).code? a = (d.code? a).or (c.code? a) := by
  simp only [code?, mem_deleted_andThen]
  simp only [andThen, ExtTreeMap.getElem?_union, ExtTreeMap.getElem?_filter']
  cases d.codes[a]? <;> cases c.codes[a]? <;> by_cases h : a ∈ d.deleted <;> simp [h]

theorem mem_wiped_andThen :
    a ∈ (c.andThen d).wiped ↔ a ∈ d.wiped ∨ a ∈ c.wiped ∧ a ∉ d.deleted := by
  simp only [andThen, ExtTreeSet.mem_union_iff, ExtTreeSet.mem_filter]
  simp [or_comm]

theorem storage?_andThen :
    (c.andThen d).storage? a i = (d.storage? a i).or (c.storage? a i) := by
  simp only [storage?, mem_deleted_andThen, mem_wiped_andThen]
  simp only [andThen, ExtTreeMap.getElem?_union, ExtTreeMap.getElem?_filter']
  cases d.words[(⟨a, i⟩ : Slot)]? <;> cases c.words[(⟨a, i⟩ : Slot)]? <;>
    by_cases h : a ∈ d.deleted <;> by_cases hw : a ∈ d.wiped <;> simp [h, hw]

theorem present?_andThen : (c.andThen d).present? a = (d.present? a).or (c.present? a) := by
  simp only [present?, mem_balances_andThen, mem_nonces_andThen, mem_codes_andThen,
    mem_deleted_andThen]
  by_cases a ∈ d.balances <;> by_cases a ∈ d.nonces <;> by_cases a ∈ d.codes <;>
    by_cases a ∈ d.deleted <;> simp_all

/-! A write after both is a write to the later one. -/

variable {c d} in
/-- Change sets that hold the same are equal. -/
theorem eq_of_entries (hb : ∀ a : Address, c.balances[a]? = d.balances[a]?)
    (hc : ∀ a : Address, c.codes[a]? = d.codes[a]?)
    (hn : ∀ a : Address, c.nonces[a]? = d.nonces[a]?)
    (hr : ∀ a, a ∈ c.wiped ↔ a ∈ d.wiped) (hw : ∀ s : Slot, c.words[s]? = d.words[s]?)
    (hd : ∀ a, a ∈ c.deleted ↔ a ∈ d.deleted) : c = d := by
  obtain ⟨_, _, _, _, _, _⟩ := c
  obtain ⟨_, _, _, _, _, _⟩ := d
  cases ExtTreeMap.ext_getElem? hb
  cases ExtTreeMap.ext_getElem? hc
  cases ExtTreeMap.ext_getElem? hn
  cases ExtTreeSet.ext_mem hr
  cases ExtTreeMap.ext_getElem? hw
  cases ExtTreeSet.ext_mem hd
  rfl

@[simp] theorem andThen_empty : c.andThen ∅ = c := by
  have hmap {κ γ : Type} [Ord κ] [Std.TransOrd κ] [Std.LawfulEqOrd κ] (m : ExtTreeMap κ γ)
      (k : κ) : (m.filter (fun _ _ => true) ∪ ∅)[k]? = m[k]? := by
    rw [ExtTreeMap.getElem?_union, ExtTreeMap.getElem?_filter']
    cases m[k]? <;> simp
  apply eq_of_entries
  case hb => simpa [andThen, empty_def] using hmap c.balances
  case hc => simpa [andThen, empty_def] using hmap c.codes
  case hn => simpa [andThen, empty_def] using hmap c.nonces
  case hw => simpa [andThen, empty_def] using hmap c.words
  case hr => simp [andThen, empty_def]
  case hd => simp [andThen, empty_def]

theorem andThen_setBalance : c.andThen (d.setBalance a q) = (c.andThen d).setBalance a q :=
  congrArg (fun m => { c.andThen d with balances := m })
    (ExtTreeMap.union_insert_right_eq_insert_union (p := ⟨a, q⟩))

theorem andThen_setNonce : c.andThen (d.setNonce a q) = (c.andThen d).setNonce a q :=
  congrArg (fun m => { c.andThen d with nonces := m })
    (ExtTreeMap.union_insert_right_eq_insert_union (p := ⟨a, q⟩))

theorem andThen_setCode : c.andThen (d.setCode a code) = (c.andThen d).setCode a code :=
  congrArg (fun m => { c.andThen d with codes := m })
    (ExtTreeMap.union_insert_right_eq_insert_union (p := ⟨a, code⟩))

theorem andThen_setStorage : c.andThen (d.setStorage a i v) = (c.andThen d).setStorage a i v :=
  congrArg (fun m => { c.andThen d with words := m })
    (ExtTreeMap.union_insert_right_eq_insert_union (p := ⟨⟨a, i⟩, v⟩))

/-- A reset takes the words of both. -/
theorem andThen_wipeStorage : c.andThen (d.wipeStorage a) = (c.andThen d).wipeStorage a := by
  apply eq_of_entries
  case hw =>
    intro s
    simp only [andThen, wipeStorage, ExtTreeMap.getElem?_filter', ExtTreeMap.getElem?_union,
      ExtTreeSet.mem_insert, Std.compare_eq_iff_eq]
    by_cases h : s.address = a
    · cases d.words[s]? <;> cases c.words[s]? <;> simp [h]
    · by_cases hl : s.address ∉ d.deleted ∧ s.address ∉ d.wiped <;>
        cases d.words[s]? <;> cases c.words[s]? <;> simp [h, Ne.symm h, Option.filter_some, hl]
  case hr => simp [andThen, wipeStorage, ExtTreeSet.mem_union_iff, or_left_comm]
  all_goals
    intro b
    rfl

theorem andThen_delete : c.andThen (d.delete a) = (c.andThen d).delete a := by
  have hmap {γ : Type} (m n : ExtTreeMap Address γ) (b : Address) :
      (m.filter (fun b _ => b ∉ d.deleted.insert a) ∪ n.erase a)[b]? =
        ((m.filter (fun b _ => b ∉ d.deleted) ∪ n).erase a)[b]? := by
    simp only [ExtTreeMap.getElem?_filter', ExtTreeMap.getElem?_union, ExtTreeMap.getElem?_erase,
      ExtTreeSet.mem_insert, Std.compare_eq_iff_eq]
    by_cases h : a = b
    · cases m[b]? <;> simp [h]
    · cases n[b]? <;> cases m[b]? <;> simp [h]
  apply eq_of_entries
  case hb => exact hmap c.balances d.balances
  case hc => exact hmap c.codes d.codes
  case hn => exact hmap c.nonces d.nonces
  case hw =>
    intro s
    simp only [andThen, delete, ExtTreeMap.getElem?_filter', ExtTreeMap.getElem?_union,
      ExtTreeSet.mem_insert, ExtTreeSet.mem_erase, Std.compare_eq_iff_eq]
    by_cases h : s.address = a
    · cases d.words[s]? <;> cases c.words[s]? <;> simp [h]
    · by_cases hl : s.address ∉ d.deleted ∧ s.address ∉ d.wiped <;>
        cases d.words[s]? <;> cases c.words[s]? <;> simp [h, Ne.symm h, Option.filter_some, hl]
  case hr =>
    intro b
    by_cases h : a = b <;> simp [andThen, delete, ExtTreeSet.mem_union_iff, h]
  case hd => simp [andThen, delete, ExtTreeSet.mem_union_iff, or_left_comm]

end Transact.Changes
