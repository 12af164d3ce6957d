import Transact.Proofs.Anchors

/-!
Which accounts there are once a ledger is settled: the ones the ledger holds, and the
account of each word of storage left in it, be the word zero. Main statement:
`settling_makes_accounts_of_words`.
-/

namespace Transact

open Std (ExtTreeMap ExtTreeSet)

namespace Changes

theorem mem_words_andThen (c d : Changes) (slot : Slot) :
    slot ∈ (c.andThen d).words ↔
      slot ∈ d.words ∨ slot ∈ c.words ∧ slot.address ∉ d.deleted ∧ slot.address ∉ d.wiped := by
  simp only [andThen, ExtTreeMap.mem_union_iff, ExtTreeMap.mem_filter]
  simp [or_comm, and_left_comm]

end Changes

namespace State

/-- A word makes the account it is written about, as a ledger does not. -/
theorem present_write_iff (s : State) (c : Changes) (a : Address) :
    Store.present (s.write c) a ↔
      (⟨s, c, []⟩ : Ledger State).present a ∨ ∃ i, (⟨a, i⟩ : Slot) ∈ c.words := by
  have hclear : ((s.clear c)[a]?).isSome = if a ∈ c.deleted then false else s[a]?.isSome := by
    rw [getElem?_clear]
    split
    · rfl
    · split
      · exact Option.isSome_map
      · rfl
  have htouched : a ∈ c.touched ↔ c.Written a ∨ ∃ i, (⟨a, i⟩ : Slot) ∈ c.words := by
    unfold Changes.Written
    rw [Changes.mem_touched, or_assoc, or_assoc]
  rw [present_eq, present_of_root, getElem?_write]
  by_cases hw : c.Written a
  · simp [htouched, hw]
  · by_cases hs : ∃ i, (⟨a, i⟩ : Slot) ∈ c.words
    · simp [htouched, hs]
    · simp [htouched, hw, hs, hclear]

end State

namespace Ledger

variable {β : Type} [Store β]

/-- The account of each word is there, as the layer of the word and those under it
tell. -/
def HousedOver (base : β) : List Changes → Prop
  | [] => True
  | c :: cs => (∀ slot ∈ c.words, (⟨base, c, cs⟩ : Ledger β).present slot.address) ∧
      HousedOver base cs

/-- No layer holds a word of an account that was not there. -/
def Housed (l : Ledger β) : Prop := HousedOver l.base l.layers

namespace Housed

variable {l l' : Ledger β}

theorem ofBase (base : β) : (ofBase base).Housed :=
  ⟨fun _ hs => absurd hs ExtTreeMap.not_mem_empty, trivial⟩

/-- A write that adds no word, and takes no account from under one. -/
theorem write (h : l.Housed) (hb : l.SameBelow l')
    (hw : ∀ slot ∈ l'.top.words,
      slot ∈ l.top.words ∧ (l.present slot.address → l'.present slot.address)) :
    l'.Housed := by
  obtain ⟨base, top, below⟩ := l'
  obtain ⟨rfl, rfl⟩ := hb
  exact ⟨fun slot hs => (hw slot hs).2 (h.1 slot (hw slot hs).1), h.2⟩

theorem setBalance (h : l.Housed) (a : Address) (v : Quantity) : (l.setBalance a v).Housed := by
  refine h.write ⟨rfl, rfl⟩ fun slot hs => ⟨hs, fun hp => ?_⟩
  rw [present_setBalance]
  split
  · rfl
  · exact hp

theorem setNonce (h : l.Housed) (a : Address) (n : Quantity) : (l.setNonce a n).Housed := by
  refine h.write ⟨rfl, rfl⟩ fun slot hs => ⟨hs, fun hp => ?_⟩
  rw [present_setNonce]
  split
  · rfl
  · exact hp

theorem setCode (h : l.Housed) (a : Address) (code : Bytes) : (l.setCode a code).Housed := by
  refine h.write ⟨rfl, rfl⟩ fun slot hs => ⟨hs, fun hp => ?_⟩
  rw [present_setCode]
  split
  · rfl
  · exact hp

theorem wipeStorage (h : l.Housed) (a : Address) : (l.wipeStorage a).Housed :=
  h.write ⟨rfl, rfl⟩ fun _ hs => ⟨ExtTreeMap.mem_of_mem_filter hs, id⟩

/-- The words go with the account. -/
theorem delete (h : l.Housed) (a : Address) : (l.delete a).Housed := by
  refine h.write ⟨rfl, rfl⟩ fun slot hs => ?_
  obtain ⟨hs, hne⟩ : slot ∈ l.top.words ∧ slot.address ≠ a := by
    simpa [Ledger.delete, Changes.delete, ExtTreeMap.mem_filter] using hs
  refine ⟨hs, fun hp => ?_⟩
  rw [present_delete, if_neg (Ne.symm hne)]
  exact hp

theorem setStorage (h : l.Housed) {a : Address} (ha : l.present a) (i v : Word) :
    (l.setStorage a i v).Housed := by
  refine ⟨fun slot hs => ?_, h.2⟩
  change l.present slot.address
  rcases ExtTreeMap.mem_insert.mp hs with he | hs
  · cases Std.compare_eq_iff_eq.mp he
    exact ha
  · exact h.1 slot hs

theorem debit (h : l.Housed) {a : Address} {v : Quantity} (hd : l.debit a v = .ok l') :
    l'.Housed := by
  obtain ⟨-, rfl⟩ := eq_of_debit hd
  exact h.setBalance a _

theorem transfer (h : l.Housed) {a target : Address} {v : Quantity}
    (ht : l.transfer a target v = .ok l') : l'.Housed := by
  obtain ⟨paid, hd, rfl⟩ := eq_of_transfer ht
  exact (h.debit hd).setBalance target _

theorem attempt (h : l.Housed) {r : Except Exception (Ledger β)}
    (hr : ∀ l', r = .ok l' → l'.Housed) : (l.attempt r).2.Housed := by
  cases r with
  | error e => exact h
  | ok l' => exact hr l' rfl

/-- A word of the outer layer that a commit keeps is of an account the inner layer has
not deleted. -/
theorem pop (h : l.Housed) (v : Verdict) : (l.pop v).Housed := by
  obtain ⟨base, top, below⟩ := l
  cases below with
  | nil => exact h
  | cons parent rest =>
    obtain ⟨htop, hparent, hrest⟩ := h
    cases v with
    | revert => exact ⟨hparent, hrest⟩
    | commit =>
      have hsame := present_pop_commit (⟨base, top, parent :: rest⟩ : Ledger β)
      refine ⟨fun slot hs => ?_, hrest⟩
      change (pop ⟨base, top, parent :: rest⟩ .commit).present slot.address
      rw [hsame]
      rcases (Changes.mem_words_andThen parent top slot).mp hs with hs | ⟨hs, hdeleted, -⟩
      · exact htop slot hs
      · have hkept : top.present? slot.address = none ∨ top.present? slot.address = some true := by
          unfold Changes.present?
          rw [if_neg hdeleted]
          split
          · exact .inr rfl
          · exact .inl rfl
        have hunder := hparent slot hs
        unfold present layers at hunder ⊢
        rw [List.findSome?_cons]
        rcases hkept with hn | ht
        · rw [hn]
          exact hunder
        · rw [ht]
          rfl

/-- Only a word written of an account that is not there breaks it. -/
theorem perform (h : l.Housed) (op : Operation)
    (hop : ∀ a i v, op = .setStorage a i v → l.present a) : (l.perform op).2.Housed := by
  cases op with
  | credit a v => exact h.setBalance a _
  | debit a v => exact h.attempt fun _ hd => h.debit hd
  | transfer a target v => exact h.attempt fun _ ht => h.transfer ht
  | bumpNonce a => exact h.setNonce a _
  | setNonce a n => exact h.setNonce a n
  | setCode a code => exact h.setCode a code
  | setStorage a i v => exact h.setStorage (hop a i v rfl) i v
  | wipeStorage a => exact h.wipeStorage a
  | delete a => exact h.delete a
  | push => exact ⟨fun _ hs => absurd hs ExtTreeMap.not_mem_empty, h⟩
  | pop v => exact h.pop v
  | _ => exact h

theorem replay (h : l.Housed) {ops : List Operation}
    (hops : ∀ before a i v after, ops = before ++ .setStorage a i v :: after →
      (l.replay before).present a) : (l.replay ops).Housed := by
  induction ops generalizing l with
  | nil => exact h
  | cons op ops ih =>
    have hop : ∀ a i v, op = .setStorage a i v → l.present a := by
      rintro a i v rfl
      exact hops [] a i v ops rfl
    refine ih (h.perform op hop) fun before a i v after he => ?_
    exact hops (op :: before) a i v after (congrArg (op :: ·) he)

end Housed

/-- Whatever was done to a ledger over `s`, with every checkpoint closed: settling keeps
the accounts there are, and makes the account of each word that the ledger still holds,
a zero word too. So it changes none exactly if these accounts are there already; and
they are if no word was ever written of an account that was not there. -/
theorem settling_makes_accounts_of_words (s : State) (ops : List Operation)
    (hl : ((ofBase s).replay ops).openCount = 0) :
    let l := (ofBase s).replay ops
    let kept := l.base.settle l.root false
    (∀ a, Store.present kept a ↔ l.present a ∨ ∃ i, (⟨a, i⟩ : Slot) ∈ l.root.words) ∧
    ((∀ a, Store.present kept a = l.present a) ↔
      ∀ slot ∈ l.root.words, l.present slot.address) ∧
    ((∀ before a i v after, ops = before ++ .setStorage a i v :: after →
        ((ofBase s).replay before).present a) →
      ∀ a, Store.present kept a = l.present a) := by
  intro l kept
  have hbelow : l.below = [] := List.eq_nil_of_length_eq_zero hl
  have hone : l = ⟨l.base, l.root, []⟩ := by
    unfold root
    rw [hbelow]
    exact congrArg (Ledger.mk l.base l.top) hbelow
  have hmade : ∀ a, Store.present kept a ↔ l.present a ∨ ∃ i, (⟨a, i⟩ : Slot) ∈ l.root.words := by
    intro a
    have h := State.present_write_iff l.base l.root a
    rwa [← hone] at h
  have hsame : (∀ a, Store.present kept a = l.present a) ↔
      ∀ slot ∈ l.root.words, l.present slot.address := by
    constructor
    · intro h slot hs
      rw [← h]
      exact (hmade slot.address).mpr (.inr ⟨slot.index, hs⟩)
    · intro h a
      rw [Bool.eq_iff_iff, hmade]
      refine ⟨?_, .inl⟩
      rintro (hp | ⟨i, hi⟩)
      · exact hp
      · exact h ⟨a, i⟩ hi
  refine ⟨hmade, hsame, fun hops => hsame.mpr ?_⟩
  have hhoused : l.Housed := (Housed.ofBase s).replay hops
  rw [hone] at hhoused
  intro slot hs
  rw [hone]
  exact hhoused.1 slot hs

/-- A word written of an account that was credited before, be it with nothing. -/
theorem settling_keeps_credited_account :
    let l := (ofBase (∅ : State)).replay [.credit 1 0, .push, .setStorage 1 1 7, .pop .commit]
    l.openCount = 0 ∧ ∀ a, Store.present (l.base.settle l.root false) a = l.present a := by
  have hops : ∀ before a i v after,
      ([.credit 1 0, .push, .setStorage 1 1 7, .pop .commit] : List Operation) =
        before ++ .setStorage a i v :: after →
      ((ofBase (∅ : State)).replay before).present a := by
    intro before a i v after he
    rcases before with - | ⟨_, - | ⟨_, - | ⟨_, before⟩⟩⟩
    case cons.cons.nil =>
      cases he
      decide +kernel
    case cons.cons.cons =>
      cases before <;> simp at he
    all_goals cases he
  exact ⟨rfl, (settling_makes_accounts_of_words ∅ _ rfl).2.2 hops⟩

/-- Nothing but a zero word was written, of an account that is not there: it is there
once the ledger is settled. -/
theorem settling_makes_account_of_zero_word :
    let l := (ofBase (∅ : State)).replay [.setStorage 1 1 0]
    l.openCount = 0 ∧ l.present 1 = false ∧
      Store.present (l.base.settle l.root false) 1 = true := by
  decide +kernel

end Ledger

end Transact
