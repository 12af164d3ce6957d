import Transact.Changes.Lemmas
import Transact.Ledger

/-!
Reading a ledger. A checkpoint opened, or closed with its changes kept, moves no
reading; and each write is read back.
-/

namespace Transact.Ledger

variable {β : Type} [Store β] (l : Ledger β) (a b : Address) (i j v : Word) (q : Quantity)

@[simp] theorem balance_push : l.push.balance a = l.balance a := by
  simp [balance, push, layers]

@[simp] theorem nonce_push : l.push.nonce a = l.nonce a := by
  simp [nonce, push, layers]

@[simp] theorem code_push : l.push.code a = l.code a := by
  simp [code, push, layers]

@[simp] theorem storage_push : l.push.storage a i = l.storage a i := by
  simp [storage, push, layers]

@[simp] theorem present_push : l.push.present a = l.present a := by
  simp [present, push, layers]

@[simp] theorem balance_pop_commit : (l.pop .commit).balance a = l.balance a := by
  unfold pop
  split
  · rfl
  · rename_i h
    simp only [balance, layers, h, List.findSome?_cons, Changes.balance?_andThen]
    cases l.top.balance? a <;> simp

@[simp] theorem nonce_pop_commit : (l.pop .commit).nonce a = l.nonce a := by
  unfold pop
  split
  · rfl
  · rename_i h
    simp only [nonce, layers, h, List.findSome?_cons, Changes.nonce?_andThen]
    cases l.top.nonce? a <;> simp

@[simp] theorem code_pop_commit : (l.pop .commit).code a = l.code a := by
  unfold pop
  split
  · rfl
  · rename_i h
    simp only [code, layers, h, List.findSome?_cons, Changes.code?_andThen]
    cases l.top.code? a <;> simp

@[simp] theorem storage_pop_commit : (l.pop .commit).storage a i = l.storage a i := by
  unfold pop
  split
  · rfl
  · rename_i h
    simp only [storage, layers, h, List.findSome?_cons, Changes.storage?_andThen]
    cases l.top.storage? a i <;> simp

@[simp] theorem present_pop_commit : (l.pop .commit).present a = l.present a := by
  unfold pop
  split
  · rfl
  · rename_i h
    simp only [present, layers, h, List.findSome?_cons, Changes.present?_andThen]
    cases l.top.present? a <;> simp

theorem balance_setBalance :
    (l.setBalance a q).balance b = if a = b then q else l.balance b := by
  simp only [balance, setBalance, layers, List.findSome?_cons, Changes.balance?_setBalance]
  by_cases h : a = b <;> simp [h]

@[simp] theorem nonce_setBalance : (l.setBalance a q).nonce b = l.nonce b := rfl

@[simp] theorem code_setBalance : (l.setBalance a q).code b = l.code b := rfl

@[simp] theorem storage_setBalance : (l.setBalance a q).storage b i = l.storage b i := rfl

theorem present_setBalance :
    (l.setBalance a q).present b = if a = b then true else l.present b := by
  simp only [present, setBalance, layers, List.findSome?_cons, Changes.present?_setBalance]
  by_cases h : a = b <;> simp [h]

theorem nonce_setNonce : (l.setNonce a q).nonce b = if a = b then q else l.nonce b := by
  simp only [nonce, setNonce, layers, List.findSome?_cons, Changes.nonce?_setNonce]
  by_cases h : a = b <;> simp [h]

@[simp] theorem balance_setNonce : (l.setNonce a q).balance b = l.balance b := rfl

@[simp] theorem code_setNonce : (l.setNonce a q).code b = l.code b := rfl

@[simp] theorem storage_setNonce : (l.setNonce a q).storage b i = l.storage b i := rfl

theorem present_setNonce :
    (l.setNonce a q).present b = if a = b then true else l.present b := by
  simp only [present, setNonce, layers, List.findSome?_cons, Changes.present?_setNonce]
  by_cases h : a = b <;> simp [h]

theorem code_setCode (code : Bytes) :
    (l.setCode a code).code b = if a = b then code else l.code b := by
  simp only [Ledger.code, setCode, layers, List.findSome?_cons, Changes.code?_setCode]
  by_cases h : a = b <;> simp [h]

@[simp] theorem balance_setCode (code : Bytes) : (l.setCode a code).balance b = l.balance b := rfl

@[simp] theorem nonce_setCode (code : Bytes) : (l.setCode a code).nonce b = l.nonce b := rfl

@[simp] theorem storage_setCode (code : Bytes) :
    (l.setCode a code).storage b i = l.storage b i := rfl

theorem present_setCode (code : Bytes) :
    (l.setCode a code).present b = if a = b then true else l.present b := by
  simp only [present, setCode, layers, List.findSome?_cons, Changes.present?_setCode]
  by_cases h : a = b <;> simp [h]

theorem storage_setStorage :
    (l.setStorage a i v).storage b j = if a = b ∧ i = j then v else l.storage b j := by
  simp only [storage, setStorage, layers, List.findSome?_cons, Changes.storage?_setStorage]
  by_cases h : a = b ∧ i = j <;> simp [h]

@[simp] theorem balance_setStorage : (l.setStorage a i v).balance b = l.balance b := rfl

@[simp] theorem nonce_setStorage : (l.setStorage a i v).nonce b = l.nonce b := rfl

@[simp] theorem code_setStorage : (l.setStorage a i v).code b = l.code b := rfl

@[simp] theorem present_setStorage : (l.setStorage a i v).present b = l.present b := rfl

theorem storage_wipeStorage :
    (l.wipeStorage a).storage b i = if a = b then 0 else l.storage b i := by
  simp only [storage, wipeStorage, layers, List.findSome?_cons, Changes.storage?_wipeStorage]
  by_cases h : a = b <;> simp [h]

@[simp] theorem balance_wipeStorage : (l.wipeStorage a).balance b = l.balance b := rfl

@[simp] theorem nonce_wipeStorage : (l.wipeStorage a).nonce b = l.nonce b := rfl

@[simp] theorem code_wipeStorage : (l.wipeStorage a).code b = l.code b := rfl

@[simp] theorem present_wipeStorage : (l.wipeStorage a).present b = l.present b := rfl

theorem balance_delete : (l.delete a).balance b = if a = b then 0 else l.balance b := by
  simp only [balance, delete, layers, List.findSome?_cons, Changes.balance?_delete]
  by_cases h : a = b <;> simp [h]

theorem nonce_delete : (l.delete a).nonce b = if a = b then 0 else l.nonce b := by
  simp only [nonce, delete, layers, List.findSome?_cons, Changes.nonce?_delete]
  by_cases h : a = b <;> simp [h]

theorem code_delete : (l.delete a).code b = if a = b then [] else l.code b := by
  simp only [code, delete, layers, List.findSome?_cons, Changes.code?_delete]
  by_cases h : a = b <;> simp [h]

theorem storage_delete : (l.delete a).storage b i = if a = b then 0 else l.storage b i := by
  simp only [storage, delete, layers, List.findSome?_cons, Changes.storage?_delete]
  by_cases h : a = b <;> simp [h]

theorem present_delete : (l.delete a).present b = if a = b then false else l.present b := by
  simp only [present, delete, layers, List.findSome?_cons, Changes.present?_delete]
  by_cases h : a = b <;> simp [h]

/-! Deleting accounts one after the other. -/

variable {l}

omit [Store β] in
theorem foldl_delete_induction {P : Ledger β → Prop} {as : List Address}
    (hdelete : ∀ l, ∀ a ∈ as, P l → P (l.delete a)) (hl : P l) : P (as.foldl .delete l) := by
  induction as generalizing l with
  | nil => exact hl
  | cons a as ih =>
    obtain ⟨ha, has⟩ := List.forall_mem_cons.mp fun a ha l => hdelete l a ha
    exact ih (fun l b hb => has b hb l) (ha l hl)

omit [Store β] in
/-- What each deletion keeps holds after all of them. -/
theorem deleteAll_induction {P : Ledger β → Prop} {condemned : Std.ExtTreeSet Address}
    (hdelete : ∀ l, ∀ a ∈ condemned, P l → P (l.delete a)) (hl : P l) :
    P (condemned.foldl .delete l) := by
  rw [Std.ExtTreeSet.foldl_eq_foldl_toList]
  exact foldl_delete_induction
    (fun l a ha => hdelete l a (Std.ExtTreeSet.mem_toList.mp ha)) hl

end Transact.Ledger
