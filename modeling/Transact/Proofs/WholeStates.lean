import Mathlib.Logic.Function.Basic
import Transact.Ledger.Lemmas
import Transact.Ledger.Operation
import Transact.Proofs.Layers

/-!
A ledger of change sets is a stack of whole states. The stack keeps for every
open checkpoint all that can be read, and each operation edits its top at once.
Main statement: `performAll_ofBase_agrees`, over any store and any operations.
-/

namespace Transact

/-- All that can be read of the accounts. -/
@[ext] structure WholeState where
  balance : Address → Quantity
  nonce : Address → Quantity
  code : Address → Bytes
  storage : Address → Word → Word
  present : Address → Bool

namespace WholeState

open Function (update)

def ofStore {β : Type} [Store β] (base : β) : WholeState :=
  ⟨Store.balance base, Store.nonce base, Store.code base, Store.storage base,
    Store.present base⟩

variable (s : WholeState) (a : Address)

def setBalance (v : Quantity) : WholeState :=
  { s with balance := update s.balance a v, present := update s.present a true }

def setNonce (n : Quantity) : WholeState :=
  { s with nonce := update s.nonce a n, present := update s.present a true }

def setCode (code : Bytes) : WholeState :=
  { s with code := update s.code a code, present := update s.present a true }

def setStorage (i v : Word) : WholeState :=
  { s with storage := update s.storage a (update (s.storage a) i v) }

def wipeStorage : WholeState := { s with storage := update s.storage a fun _ => 0 }

def delete : WholeState where
  balance := update s.balance a 0
  nonce := update s.nonce a 0
  code := update s.code a []
  storage := update s.storage a fun _ => 0
  present := update s.present a false

def credit (v : Quantity) : WholeState := s.setBalance a (s.balance a + v)

def debit (v : Quantity) : Except Exception WholeState :=
  if s.balance a < v then .error .notEnoughCash else .ok (s.setBalance a (s.balance a - v))

/-- Moves `v` from `a` to `target`. -/
def transfer (target : Address) (v : Quantity) : Except Exception WholeState :=
  (s.debit a v).map fun s => s.credit target v

end WholeState

/-- A non-empty stack of whole states. -/
structure WholeStates where
  top : WholeState
  /-- The innermost first. -/
  below : List WholeState

namespace WholeStates

open Ledger (Operation Answer)

def ofStore {β : Type} [Store β] (base : β) : WholeStates := ⟨.ofStore base, []⟩

def push (s : WholeStates) : WholeStates := ⟨s.top, s.top :: s.below⟩

def pop (s : WholeStates) (v : Verdict) : Answer × WholeStates :=
  match s.below with
  | [] => (.uneven, s)
  | second :: rest =>
    match v with
    | .commit => (.done, ⟨s.top, rest⟩)
    | .revert => (.done, ⟨second, rest⟩)

def edit (s : WholeStates) (top : WholeState) : Answer × WholeStates := (.done, { s with top })

def attempt (s : WholeStates) : Except Exception WholeState → Answer × WholeStates
  | .ok top => s.edit top
  | .error e => (.failed e, s)

def perform (s : WholeStates) : Operation → Answer × WholeStates
  | .balance a => (.quantity (s.top.balance a), s)
  | .nonce a => (.quantity (s.top.nonce a), s)
  | .code a => (.bytes (s.top.code a), s)
  | .present a => (.flag (s.top.present a), s)
  | .storage a i => (.word (s.top.storage a i), s)
  | .credit a v => s.edit (s.top.credit a v)
  | .debit a v => s.attempt (s.top.debit a v)
  | .transfer source target v => s.attempt (s.top.transfer source target v)
  | .bumpNonce a => s.edit (s.top.setNonce a (s.top.nonce a + 1))
  | .setNonce a n => s.edit (s.top.setNonce a n)
  | .setCode a code => s.edit (s.top.setCode a code)
  | .setStorage a i v => s.edit (s.top.setStorage a i v)
  | .wipeStorage a => s.edit (s.top.wipeStorage a)
  | .delete a => s.edit (s.top.delete a)
  | .push => (.done, s.push)
  | .pop v => s.pop v

def performAll (s : WholeStates) : List Operation → List Answer × WholeStates
  | [] => ([], s)
  | op :: ops =>
    let (answer, s) := s.perform op
    let (answers, s) := s.performAll ops
    (answer :: answers, s)

end WholeStates

namespace Ledger

variable {β : Type} [Store β]

/-- All that a ledger answers. -/
def whole (l : Ledger β) : WholeState :=
  ⟨l.balance, l.nonce, l.code, l.storage, l.present⟩

/-- What the layers answer once those above them are gone. -/
def wholesOf (base : β) : List Changes → List WholeState
  | [] => []
  | c :: cs => (⟨base, c, cs⟩ : Ledger β).whole :: wholesOf base cs

/-- The whole states that a ledger stands for. -/
def wholes (l : Ledger β) : WholeStates := ⟨l.whole, wholesOf l.base l.below⟩

theorem length_wholesOf (base : β) (cs : List Changes) :
    (wholesOf base cs).length = cs.length := by
  induction cs with
  | nil => rfl
  | cons c cs ih => simp [wholesOf, ih]

variable (l : Ledger β) (a : Address)

theorem whole_ofBase (base : β) : (ofBase base).whole = .ofStore base := by
  ext <;> simp [whole, ofBase, WholeState.ofStore, balance, nonce, code, storage, present, layers]

/-! Each write to the innermost layer edits the whole state at the top. -/

theorem whole_setBalance (v : Quantity) : (l.setBalance a v).whole = l.whole.setBalance a v := by
  ext b : 2 <;> try rfl
  · simp [whole, WholeState.setBalance, balance_setBalance, Function.update_apply, eq_comm]
  · simp [whole, WholeState.setBalance, present_setBalance, Function.update_apply, eq_comm]

theorem whole_setNonce (n : Quantity) : (l.setNonce a n).whole = l.whole.setNonce a n := by
  ext b : 2 <;> try rfl
  · simp [whole, WholeState.setNonce, nonce_setNonce, Function.update_apply, eq_comm]
  · simp [whole, WholeState.setNonce, present_setNonce, Function.update_apply, eq_comm]

theorem whole_setCode (c : Bytes) : (l.setCode a c).whole = l.whole.setCode a c := by
  ext b : 2 <;> try rfl
  · simp [whole, WholeState.setCode, code_setCode, Function.update_apply, eq_comm]
  · simp [whole, WholeState.setCode, present_setCode, Function.update_apply, eq_comm]

theorem whole_setStorage (i v : Word) :
    (l.setStorage a i v).whole = l.whole.setStorage a i v := by
  ext b : 2 <;> try rfl
  funext j
  by_cases hb : b = a
  · subst hb
    simp [whole, WholeState.setStorage, storage_setStorage, Function.update_apply, eq_comm]
  · simp [whole, WholeState.setStorage, storage_setStorage, hb, Ne.symm hb]

theorem whole_wipeStorage : (l.wipeStorage a).whole = l.whole.wipeStorage a := by
  ext b : 2 <;> try rfl
  funext i
  by_cases hb : b = a
  · simp [whole, WholeState.wipeStorage, storage_wipeStorage, hb]
  · simp [whole, WholeState.wipeStorage, storage_wipeStorage, hb, Ne.symm hb]

theorem whole_delete : (l.delete a).whole = l.whole.delete a := by
  ext b : 2
  case storage =>
    funext i
    by_cases hb : b = a
    · simp [whole, WholeState.delete, storage_delete, hb]
    · simp [whole, WholeState.delete, storage_delete, hb, Ne.symm hb]
  · simp [whole, WholeState.delete, balance_delete, Function.update_apply, eq_comm]
  · simp [whole, WholeState.delete, nonce_delete, Function.update_apply, eq_comm]
  · simp [whole, WholeState.delete, code_delete, Function.update_apply, eq_comm]
  · simp [whole, WholeState.delete, present_delete, Function.update_apply, eq_comm]

theorem whole_credit (v : Quantity) : (l.credit a v).whole = l.whole.credit a v :=
  whole_setBalance l a _

theorem map_whole_debit (v : Quantity) : (l.debit a v).map whole = l.whole.debit a v := by
  unfold debit WholeState.debit
  by_cases h : l.balance a < v
  · have hs : l.whole.balance a < v := h
    rw [if_pos h, if_pos hs]
    rfl
  · have hs : ¬ l.whole.balance a < v := h
    rw [if_neg h, if_neg hs]
    exact congrArg Except.ok (whole_setBalance l a _)

theorem map_whole_transfer (target : Address) (v : Quantity) :
    (l.transfer a target v).map whole = l.whole.transfer a target v := by
  unfold transfer WholeState.transfer
  rw [← map_whole_debit]
  cases l.debit a v with
  | error e => rfl
  | ok paid => exact congrArg Except.ok (whole_credit paid target v)

theorem whole_push : l.push.whole = l.whole := by
  ext <;> simp [whole]

theorem whole_pop_commit : (l.pop .commit).whole = l.whole := by
  ext <;> simp [whole]

/-- Opening a checkpoint duplicates the top. -/
theorem wholes_push : l.push.wholes = l.wholes.push := by
  unfold wholes WholeStates.push
  rw [whole_push]
  rfl

/-- Closing one drops the top or the second, and fails at the root. -/
theorem wholes_pop (v : Verdict) :
    l.wholes.pop v = ((l.perform (.pop v)).1, (l.pop v).wholes) := by
  obtain ⟨base, top, below⟩ := l
  cases below with
  | nil => rfl
  | cons parent rest =>
    cases v with
    | revert => rfl
    | commit =>
      have h := whole_pop_commit (⟨base, top, parent :: rest⟩ : Ledger β)
      simp only [wholes, h]
      rfl

/-- A write to the innermost layer edits the top. -/
theorem wholes_edit {l l' : Ledger β} {s : WholeState} (hs : l'.whole = s) (h : l.SameBelow l') :
    l.wholes.edit s = (.done, l'.wholes) := by
  subst hs
  simp only [WholeStates.edit, wholes, h.base, h.below]

/-- A write that may fail edits the top or nothing. -/
theorem wholes_attempt {l : Ledger β} {r : Except Exception (Ledger β)}
    (h : ∀ l', r = .ok l' → l.SameBelow l') :
    l.wholes.attempt (r.map whole) = ((l.attempt r).1, (l.attempt r).2.wholes) := by
  cases r with
  | error e => rfl
  | ok l' => exact wholes_edit rfl (h l' rfl)

/-- One operation on the ledger is the same operation on the whole states. -/
theorem wholes_perform (op : Operation) :
    l.wholes.perform op = ((l.perform op).1, (l.perform op).2.wholes) := by
  cases op with
  | balance a => rfl
  | nonce a => rfl
  | code a => rfl
  | present a => rfl
  | storage a i => rfl
  | credit a v => exact wholes_edit (whole_credit l a v) ⟨rfl, rfl⟩
  | debit a v =>
    have h := wholes_attempt (r := l.debit a v) fun _ => sameBelow_of_debit
    rwa [map_whole_debit] at h
  | transfer source target v =>
    have h := wholes_attempt (r := l.transfer source target v) fun _ => sameBelow_of_transfer
    rwa [map_whole_transfer] at h
  | bumpNonce a => exact wholes_edit (whole_setNonce l a _) ⟨rfl, rfl⟩
  | setNonce a n => exact wholes_edit (whole_setNonce l a n) ⟨rfl, rfl⟩
  | setCode a code => exact wholes_edit (whole_setCode l a code) ⟨rfl, rfl⟩
  | setStorage a i v => exact wholes_edit (whole_setStorage l a i v) ⟨rfl, rfl⟩
  | wipeStorage a => exact wholes_edit (whole_wipeStorage l a) ⟨rfl, rfl⟩
  | delete a => exact wholes_edit (whole_delete l a) ⟨rfl, rfl⟩
  | push => exact Prod.ext rfl (wholes_push l).symm
  | pop v => exact wholes_pop l v

theorem wholes_performAll (ops : List Operation) :
    l.wholes.performAll ops = ((l.performAll ops).1, (l.performAll ops).2.wholes) := by
  induction ops generalizing l with
  | nil => rfl
  | cons op ops ih => simp only [WholeStates.performAll, performAll, wholes_perform, ih]

theorem wholes_ofBase (base : β) : (ofBase base).wholes = .ofStore base := by
  unfold wholes
  rw [whole_ofBase]
  rfl

/-- From any store on, a ledger gives the answers of the stack of whole states;
and after any first part of the operations the two agree on every reading and on
the number of open checkpoints. -/
theorem performAll_ofBase_agrees (base : β) (ops : List Operation) :
    ((ofBase base).performAll ops).1 = ((WholeStates.ofStore base).performAll ops).1 ∧
    ∀ n,
      let l := ((ofBase base).performAll (ops.take n)).2
      let s := ((WholeStates.ofStore base).performAll (ops.take n)).2
      (∀ a, l.balance a = s.top.balance a ∧ l.nonce a = s.top.nonce a ∧
        l.code a = s.top.code a ∧ l.present a = s.top.present a ∧
        ∀ i, l.storage a i = s.top.storage a i) ∧
      l.openCount = s.below.length := by
  have h := fun ops => wholes_performAll (ofBase base) ops
  simp only [wholes_ofBase] at h
  refine ⟨by rw [h ops], fun n => ?_⟩
  intro l s
  have hs : s = l.wholes := by simp only [s, l, h (ops.take n)]
  rw [hs]
  refine ⟨fun a => ⟨rfl, rfl, rfl, rfl, fun i => rfl⟩, ?_⟩
  exact (length_wholesOf l.base l.below).symm

end Ledger

end Transact
