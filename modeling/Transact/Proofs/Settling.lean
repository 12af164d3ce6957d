import Transact.Ledger.Lemmas
import Transact.Proofs.Balanced
import Transact.Settlement.Lemmas

/-!
Settling a ledger loses no value: the accounts at rest then answer what the ledger
answers once every open checkpoint is reverted. Main statement:
`settle_keeps_readings`, over any accounts and any operations.
-/

namespace Transact

open Std (ExtTreeMap)

namespace State

variable (s : State) (c : Changes) (a : Address)

/-- What the deletions of `c` leave, and its writes decide over, of a part of the
accounts that a storage reset does not change. -/
theorem getD_clear {α : Type} {part : Account → α}
    (hpart : ∀ account, part { account with storage := ∅ } = part account) (w : Option α) :
    w.getD (part ((s.clear c).account a)) =
      (w.or (if a ∈ c.deleted then some (part .fresh) else none)).getD (part (s.account a)) := by
  rw [account_clear]
  cases w with
  | some v => rfl
  | none =>
    by_cases hd : a ∈ c.deleted
    · simp [hd]
    · by_cases hw : a ∈ c.wiped <;> simp [hd, hw, hpart]

/-! Accounts with a change set written into them answer as the change set on top of
them does. -/

theorem balance_write : Store.balance (s.write c) a = (⟨s, c, []⟩ : Ledger State).balance a := by
  have h : Store.balance (s.write c) a =
      c.balances[a]?.getD ((s.clear c).account a).balance := by
    change ((s.write c).account a).balance = _
    rw [account_write]
    rfl
  rw [h, getD_clear s c a fun _ => rfl]
  simp [Ledger.balance, Ledger.layers, Changes.balance?, Account.fresh, Store.balance]

theorem nonce_write : Store.nonce (s.write c) a = (⟨s, c, []⟩ : Ledger State).nonce a := by
  have h : Store.nonce (s.write c) a = c.nonces[a]?.getD ((s.clear c).account a).nonce := by
    change ((s.write c).account a).nonce = _
    rw [account_write]
    rfl
  rw [h, getD_clear s c a fun _ => rfl]
  simp [Ledger.nonce, Ledger.layers, Changes.nonce?, Account.fresh, Store.nonce]

theorem code_write : Store.code (s.write c) a = (⟨s, c, []⟩ : Ledger State).code a := by
  have h : Store.code (s.write c) a = c.codes[a]?.getD ((s.clear c).account a).code := by
    change ((s.write c).account a).code = _
    rw [account_write]
    rfl
  rw [h, getD_clear s c a fun _ => rfl]
  simp [Ledger.code, Ledger.layers, Changes.code?, Account.fresh, Store.code]

/-- A word written as zero is not kept, and is read as zero all the same. -/
theorem storage_write (i : Word) :
    Store.storage (s.write c) a i = (⟨s, c, []⟩ : Ledger State).storage a i := by
  have h : Store.storage (s.write c) a i =
      c.words[(⟨a, i⟩ : Slot)]?.getD (((s.clear c).account a).storage[i]?.getD 0) := by
    change ((s.write c).account a).storage[i]?.getD 0 = _
    rw [account_write, Account.getElem?_storage_update]
    cases c.words[(⟨a, i⟩ : Slot)]? with
    | none => rfl
    | some v => by_cases hv : v = 0#256 <;> simp [hv]
  rw [h, account_clear]
  simp only [Ledger.storage, Ledger.layers, List.findSome?_cons, List.findSome?_nil,
    Changes.storage?]
  cases c.words[(⟨a, i⟩ : Slot)]? with
  | some v => rfl
  | none =>
    by_cases hd : a ∈ c.deleted
    · simp [hd, Account.fresh]
    · by_cases hw : a ∈ c.wiped <;> simp [hd, hw, Store.storage]

/-! With the emptied accounts gone. -/

theorem mem_emptied_iff : a ∈ s.emptied c ↔
    a ∈ c.touched ∧ Store.balance (s.write c) a = 0 ∧ Store.nonce (s.write c) a = 0 ∧
      Store.code (s.write c) a = [] := by
  rw [mem_emptied]
  simp [Account.isEmpty, Store.balance, Store.nonce, Store.code, and_assoc]

theorem account_settle_true : (s.settle c true).account a =
    if a ∈ s.emptied c then .fresh else (s.write c).account a := by
  unfold account
  rw [getElem?_settle_true]
  split <;> rfl

/-- What an emptied account held is what an account that is not there holds. -/
theorem reads_settle_true :
    Store.balance (s.settle c true) a = Store.balance (s.write c) a ∧
      Store.nonce (s.settle c true) a = Store.nonce (s.write c) a ∧
      Store.code (s.settle c true) a = Store.code (s.write c) a := by
  have haccount := s.account_settle_true c a
  by_cases he : a ∈ s.emptied c
  · obtain ⟨-, hb, hn, hc⟩ := (s.mem_emptied_iff c a).mp he
    rw [if_pos he] at haccount
    rw [hb, hn, hc]
    change ((s.settle c true).account a).balance = 0 ∧ ((s.settle c true).account a).nonce = 0 ∧
      ((s.settle c true).account a).code = []
    rw [haccount]
    exact ⟨rfl, rfl, rfl⟩
  · rw [if_neg he] at haccount
    change ((s.settle c true).account a).balance = ((s.write c).account a).balance ∧
      ((s.settle c true).account a).nonce = ((s.write c).account a).nonce ∧
      ((s.settle c true).account a).code = ((s.write c).account a).code
    rw [haccount]
    exact ⟨rfl, rfl, rfl⟩

end State

namespace Ledger

/-- The ledger with every open checkpoint reverted. -/
theorem replay_reverts {β : Type} [Store β] (l : Ledger β) :
    l.replay (.replicate l.openCount (.pop .revert)) = ⟨l.base, l.root, []⟩ := by
  obtain ⟨base, top, below⟩ := l
  induction below generalizing top with
  | nil => rfl
  | cons parent rest ih =>
    have hroot : (⟨base, top, parent :: rest⟩ : Ledger β).root = root ⟨base, parent, rest⟩ :=
      List.getLastD_cons
    rw [hroot]
    exact ih parent

/-- Whatever was done to a ledger over `s`, once it is settled the accounts at rest
answer what the ledger answers with every open checkpoint reverted. If emptied
accounts are to go, those that do are the ones written to and left without balance,
nonce and code, and all others stay as they are. -/
theorem settle_keeps_readings (s : State) (ops : List Operation) :
    let l := (ofBase s).replay ops
    let r := l.replay (.replicate l.openCount (.pop .revert))
    let kept := l.base.settle l.root false
    let pruned := l.base.settle l.root true
    (l.base = s ∧ r.openCount = 0) ∧
    (∀ a, Store.balance kept a = r.balance a ∧ Store.nonce kept a = r.nonce a ∧
      Store.code kept a = r.code a ∧ ∀ i, Store.storage kept a i = r.storage a i) ∧
    (∀ a, Store.balance pruned a = r.balance a ∧ Store.nonce pruned a = r.nonce a ∧
      Store.code pruned a = r.code a ∧
      (a ∈ pruned → ∀ i, Store.storage pruned a i = r.storage a i)) ∧
    (∀ a, a ∈ kept ∧ a ∉ pruned ↔
      (a ∈ l.root.balances ∨ a ∈ l.root.nonces ∨ a ∈ l.root.codes ∨
        ∃ i, (⟨a, i⟩ : Slot) ∈ l.root.words) ∧
      r.balance a = 0 ∧ r.nonce a = 0 ∧ r.code a = []) ∧
    ∀ a ∈ pruned, pruned[a]? = kept[a]? := by
  intro l r kept pruned
  have hr : r = ⟨l.base, l.root, []⟩ := l.replay_reverts
  have hkept : kept = l.base.write l.root := rfl
  have hbalance : ∀ a, Store.balance kept a = r.balance a := fun a => by
    rw [hr, hkept, State.balance_write]
  have hnonce : ∀ a, Store.nonce kept a = r.nonce a := fun a => by
    rw [hr, hkept, State.nonce_write]
  have hcode : ∀ a, Store.code kept a = r.code a := fun a => by
    rw [hr, hkept, State.code_write]
  have hstorage : ∀ a i, Store.storage kept a i = r.storage a i := fun a i => by
    rw [hr, hkept, State.storage_write]
  refine ⟨⟨base_replay _ ops, by rw [hr]; rfl⟩,
    fun a => ⟨hbalance a, hnonce a, hcode a, hstorage a⟩, ?_, ?_,
    fun a ha => State.getElem?_of_mem_settle_true ha⟩
  · intro a
    obtain ⟨hb, hn, hc⟩ := l.base.reads_settle_true l.root a
    refine ⟨hb.trans (hbalance a), hn.trans (hnonce a), hc.trans (hcode a), ?_⟩
    intro ha i
    have haccount : pruned.account a = kept.account a := by
      unfold State.account
      rw [State.getElem?_of_mem_settle_true ha]
      rfl
    rw [← hstorage a i]
    change (pruned.account a).storage[i]?.getD 0 = (kept.account a).storage[i]?.getD 0
    rw [haccount]
  · intro a
    rw [← hbalance, ← hnonce, ← hcode, ← Changes.mem_touched]
    exact (l.base.mem_write_and_not_mem_settle_true l.root a).trans
      (l.base.mem_emptied_iff l.root a)

end Ledger

end Transact
