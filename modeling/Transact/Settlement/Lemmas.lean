import Transact.Changes.Lemmas
import Transact.Settlement

/-!
Settled accounts. Main statements: `account_write`, what each account is once a
change set is written, and `mem_write_and_not_mem_settle_true`, which accounts go
because they are left empty.
-/

namespace Transact

open Std (ExtTreeMap ExtTreeSet)

namespace Changes

variable (c : Changes) (a : Address)

theorem mem_touched : a ∈ c.touched ↔
    a ∈ c.balances ∨ a ∈ c.nonces ∨ a ∈ c.codes ∨ ∃ i, (⟨a, i⟩ : Slot) ∈ c.words := by
  have hslot : (∃ s ∈ c.words.keys, s.address = a) ↔ ∃ i, (⟨a, i⟩ : Slot) ∈ c.words := by
    constructor
    · rintro ⟨⟨b, i⟩, hs, rfl⟩
      exact ⟨i, ExtTreeMap.mem_keys.mp hs⟩
    · rintro ⟨i, hi⟩
      exact ⟨⟨a, i⟩, ExtTreeMap.mem_keys.mpr hi, rfl⟩
  rw [← hslot]
  simp [touched, ExtTreeSet.mem_ofList]

/-- Of words written to distinct places, one account keeps its own. -/
theorem getElem?_foldl_storage {l : List (Slot × Word)} (hl : l.Pairwise fun p q => p.1 ≠ q.1)
    (m : ExtTreeMap Word Word) (i v : Word) :
    (l.foldl (fun m p => if p.1.address = a then m.insert p.1.index p.2 else m) m)[i]? = some v ↔
      (⟨a, i⟩, v) ∈ l ∨ (∀ w, (⟨a, i⟩, w) ∉ l) ∧ m[i]? = some v := by
  induction l generalizing m with
  | nil => simp
  | cons p l ih =>
    obtain ⟨⟨b, j⟩, u⟩ := p
    obtain ⟨hp, hl⟩ := List.pairwise_cons.mp hl
    rw [List.foldl_cons, ih hl]
    by_cases h : b = a ∧ j = i
    · obtain ⟨rfl, rfl⟩ := h
      have hrest : ∀ w, ((⟨b, j⟩ : Slot), w) ∉ l := fun w hw => hp _ hw rfl
      simp [hrest, eq_comm]
    · have hne : ∀ w, ((⟨a, i⟩ : Slot), w) ≠ (⟨b, j⟩, u) := by
        intro w hw
        cases hw
        exact h ⟨rfl, rfl⟩
      have hm : (if b = a then m.insert j u else m)[i]? = m[i]? := by
        split
        · next hb =>
          have hj : j ≠ i := fun hj => h ⟨hb, hj⟩
          simp [ExtTreeMap.getElem?_insert, hj]
        · rfl
      simp [hne, hm]

theorem getElem?_storageOf (i : Word) : (c.storageOf a)[i]? = c.words[(⟨a, i⟩ : Slot)]? := by
  have hdistinct : c.words.toList.Pairwise fun p q => p.1 ≠ q.1 := by
    refine c.words.distinct_keys_toList.imp ?_
    intro p q h he
    exact h (Std.compare_eq_iff_eq.mpr he)
  apply Option.ext
  intro v
  unfold storageOf
  rw [ExtTreeMap.foldl_eq_foldl_toList, getElem?_foldl_storage a hdistinct,
    ExtTreeMap.mem_toList_iff_getElem?_eq_some]
  simp

end Changes

attribute [ext] Account

namespace Account

variable (account : Account)

/-- A word that `c` writes is stored unless it is zero. -/
theorem getElem?_storage_update (c : Changes) (a : Address) (i : Word) :
    (account.update c a).storage[i]? =
      match c.words[(⟨a, i⟩ : Slot)]? with
      | some v => if v = 0 then none else some v
      | none => account.storage[i]? := by
  unfold update
  simp only [ExtTreeMap.getElem?_filter', ExtTreeMap.getElem?_union,
    Changes.getElem?_storageOf]
  cases c.words[(⟨a, i⟩ : Slot)]? with
  | none => cases account.storage[i]? <;> simp
  | some v => by_cases hv : v = 0 <;> simp [hv, Option.filter_some]

theorem update_of_not_mem_touched {c : Changes} {a : Address} (h : a ∉ c.touched) :
    account.update c a = account := by
  simp only [Changes.mem_touched, not_or, not_exists] at h
  obtain ⟨hb, hn, hc, hw⟩ := h
  ext1
  case nonce => simp [update, ExtTreeMap.getElem?_eq_none hn]
  case balance => simp [update, ExtTreeMap.getElem?_eq_none hb]
  case code => simp [update, ExtTreeMap.getElem?_eq_none hc]
  case storage =>
    apply ExtTreeMap.ext_getElem?
    intro i
    rw [getElem?_storage_update, ExtTreeMap.getElem?_eq_none (hw i)]

end Account

namespace State

variable (s : State) (c : Changes) (a b : Address)

theorem account_of_getElem? {s : State} {a : Address} {account : Account}
    (h : s[a]? = some account) : s.account a = account := by
  unfold State.account
  rw [h]
  rfl

theorem account_congr {s t : State} {a : Address} (h : s[a]? = t[a]?) :
    s.account a = t.account a := by
  unfold State.account
  rw [h]

theorem getElem?_clear : (s.clear c)[a]? =
    if a ∈ c.deleted then none
    else if a ∈ c.wiped then s[a]?.map fun account => { account with storage := ∅ }
    else s[a]? := by
  unfold clear
  rw [ExtTreeMap.getElem?_map, ExtTreeMap.getElem?_filter']
  by_cases hd : a ∈ c.deleted
  · cases s[a]? <;> simp [hd]
  · by_cases hw : a ∈ c.wiped <;> cases s[a]? <;> simp [hd, hw]

theorem account_clear : (s.clear c).account a =
    if a ∈ c.deleted then .fresh
    else if a ∈ c.wiped then { s.account a with storage := ∅ }
    else s.account a := by
  unfold account
  rw [getElem?_clear]
  by_cases hd : a ∈ c.deleted
  · simp [hd]
  · by_cases hw : a ∈ c.wiped
    · cases h : s[a]? <;> simp [hd, hw, Account.fresh]
    · simp [hd, hw]

theorem getElem?_foldl_insert (l : List Address) (f : Address → Account) (t : State) :
    (l.foldl (fun t a => t.insert a (f a)) t)[a]? = if a ∈ l then some (f a) else t[a]? := by
  induction l generalizing t with
  | nil => simp
  | cons b l ih =>
    rw [List.foldl_cons, ih, ExtTreeMap.getElem?_insert]
    by_cases hb : b = a
    · simp [hb]
    · simp [hb, Ne.symm hb]

theorem getElem?_foldl_erase (l : List Address) (t : State) :
    (l.foldl (fun t a => t.erase a) t)[a]? = if a ∈ l then none else t[a]? := by
  induction l generalizing t with
  | nil => simp
  | cons b l ih =>
    rw [List.foldl_cons, ih, ExtTreeMap.getElem?_erase]
    by_cases hb : b = a
    · simp [hb]
    · simp [hb, Ne.symm hb]

theorem getElem?_write : (s.write c)[a]? =
    if a ∈ c.touched then some (((s.clear c).account a).update c a) else (s.clear c)[a]? := by
  unfold write
  rw [ExtTreeSet.foldl_eq_foldl_toList, getElem?_foldl_insert]
  simp only [ExtTreeSet.mem_toList]

/-- An account that nothing was written to is not changed by an update either. -/
theorem account_write : (s.write c).account a = ((s.clear c).account a).update c a := by
  by_cases h : a ∈ c.touched
  · apply account_of_getElem?
    rw [getElem?_write, if_pos h]
  · rw [Account.update_of_not_mem_touched _ h]
    unfold account
    rw [getElem?_write, if_neg h]

theorem mem_emptied : a ∈ s.emptied c ↔ a ∈ c.touched ∧ ((s.write c).account a).isEmpty := by
  unfold emptied
  rw [List.mem_filter, ExtTreeSet.mem_toList]

theorem getElem?_settle_true :
    (s.settle c true)[a]? = if a ∈ s.emptied c then none else (s.write c)[a]? :=
  getElem?_foldl_erase a (s.emptied c) (s.write c)

/-- An account that stays is not changed. -/
theorem getElem?_of_mem_settle_true {s : State} {c : Changes} {a : Address}
    (h : a ∈ s.settle c true) : (s.settle c true)[a]? = (s.write c)[a]? := by
  have hs := s.getElem?_settle_true c a
  split at hs
  · rw [ExtTreeMap.mem_iff_isSome_getElem?, hs] at h
    cases h
  · exact hs

/-- The accounts that go are the emptied ones. -/
theorem mem_write_and_not_mem_settle_true :
    a ∈ s.write c ∧ a ∉ s.settle c true ↔ a ∈ s.emptied c := by
  rw [ExtTreeMap.mem_iff_isSome_getElem?, ExtTreeMap.mem_iff_isSome_getElem?,
    getElem?_settle_true]
  constructor
  · rintro ⟨hw, hs⟩
    apply Classical.byContradiction
    intro he
    rw [if_neg he] at hs
    exact hs hw
  · intro he
    have ht := ((s.mem_emptied c a).mp he).1
    rw [if_pos he, getElem?_write, if_pos ht]
    exact ⟨rfl, Bool.noConfusion⟩

end State

end Transact
