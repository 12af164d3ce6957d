import Transact.Changes.Lemmas
import Transact.Proofs.Jobs
import Transact.Proofs.Settling

/-!
A run never leaves a word of storage in a layer without writing the account as well.
Storage alone does not make an account in a ledger, but it does in a store: only so does
settling keep which accounts there are. Main statements: `Execution.Completed.settleable`
and `State.present_write`.
-/

namespace Transact

open Std (ExtTreeMap ExtTreeSet)

namespace Changes

/-- Something other than storage was written about the account. -/
def Written (c : Changes) (a : Address) : Prop := a ∈ c.balances ∨ a ∈ c.nonces ∨ a ∈ c.codes

instance (c : Changes) (a : Address) : Decidable (c.Written a) :=
  inferInstanceAs (Decidable (_ ∨ _ ∨ _))

/-- The account of each word is written as well. -/
def Anchored (c : Changes) : Prop := ∀ s ∈ c.words, c.Written s.address

/-- `d` holds what `c` holds written, and anchors its words if `c` does; it deletes no
more. -/
structure Grows (c d : Changes) : Prop where
  written : ∀ a, c.Written a → d.Written a
  anchored : c.Anchored → d.Anchored
  deleted : ∀ a ∈ d.deleted, a ∈ c.deleted

theorem anchored_empty : (∅ : Changes).Anchored := fun _ hs => absurd hs ExtTreeMap.not_mem_empty

namespace Grows

variable {c d e : Changes}

theorem refl (c : Changes) : c.Grows c := ⟨fun _ => id, id, fun _ => id⟩

theorem trans (h : c.Grows d) (h' : d.Grows e) : c.Grows e :=
  ⟨fun a ha => h'.written a (h.written a ha), fun hc => h'.anchored (h.anchored hc),
    fun a ha => h.deleted a (h'.deleted a ha)⟩

/-- Writes that touch neither words nor deletions. -/
theorem of_written (hw : ∀ a, c.Written a → d.Written a) (hwords : d.words = c.words)
    (hd : d.deleted = c.deleted) : c.Grows d where
  written := hw
  anchored hc s hs := hw _ (hc s (hwords ▸ hs))
  deleted _ ha := hd ▸ ha

theorem setBalance (c : Changes) (a : Address) (v : Quantity) : c.Grows (c.setBalance a v) := by
  refine .of_written ?_ rfl rfl
  rintro b (hb | hb)
  · exact .inl (ExtTreeMap.mem_insert.mpr (.inr hb))
  · exact .inr hb

theorem setNonce (c : Changes) (a : Address) (n : Quantity) : c.Grows (c.setNonce a n) := by
  refine .of_written ?_ rfl rfl
  rintro b (hb | hb | hb)
  · exact .inl hb
  · exact .inr (.inl (ExtTreeMap.mem_insert.mpr (.inr hb)))
  · exact .inr (.inr hb)

theorem setCode (c : Changes) (a : Address) (code : Bytes) : c.Grows (c.setCode a code) := by
  refine .of_written ?_ rfl rfl
  rintro b (hb | hb | hb)
  · exact .inl hb
  · exact .inr (.inl hb)
  · exact .inr (.inr (ExtTreeMap.mem_insert.mpr (.inr hb)))

theorem wipeStorage (c : Changes) (a : Address) : c.Grows (c.wipeStorage a) :=
  ⟨fun _ => id, fun hc s hs => hc s (ExtTreeMap.mem_of_mem_filter hs), fun _ => id⟩

/-- Words may be written about an account that is written already. -/
theorem setStorage {a : Address} (ha : c.Written a) (i v : Word) :
    c.Grows (c.setStorage a i v) where
  written _ := id
  anchored hc s hs := by
    rcases ExtTreeMap.mem_insert.mp hs with he | hs
    · cases Std.compare_eq_iff_eq.mp he
      exact ha
    · exact hc s hs
  deleted _ := id

/-- What grew from nothing may be committed. -/
theorem andThen (c : Changes) (h : (∅ : Changes).Grows d) : c.Grows (c.andThen d) := by
  have hdeleted : ∀ a, a ∉ d.deleted := fun a ha =>
    absurd (h.deleted a ha) ExtTreeSet.not_mem_empty
  have hwritten : ∀ a, (c.andThen d).Written a ↔ c.Written a ∨ d.Written a := by
    intro a
    unfold Written
    simp only [mem_balances_andThen, mem_nonces_andThen, mem_codes_andThen, hdeleted,
      not_false_eq_true, and_true]
    grind
  refine ⟨fun a ha => (hwritten a).mpr (.inl ha), ?_, ?_⟩
  · intro hc s hs
    rw [hwritten]
    have hunion : s ∈ c.words.filter (fun s _ => s.address ∉ d.deleted ∧ s.address ∉ d.wiped) ∨
        s ∈ d.words := ExtTreeMap.mem_union_iff.mp hs
    rcases hunion with hs | hs
    · exact .inl (hc s (ExtTreeMap.mem_of_mem_filter hs))
    · exact .inr (h.anchored anchored_empty s hs)
  · intro a ha
    rw [mem_deleted_andThen] at ha
    exact ha.resolve_right (hdeleted a)

end Grows

/-- What is deleted takes its words with it. -/
theorem Anchored.delete {c : Changes} (h : c.Anchored) (a : Address) : (c.delete a).Anchored := by
  intro s hs
  obtain ⟨hs, hne⟩ : s ∈ c.words ∧ s.address ≠ a := by
    simpa [Changes.delete, ExtTreeMap.mem_filter] using hs
  have hkeep : compare a s.address ≠ .eq := fun he => hne (Std.compare_eq_iff_eq.mp he).symm
  rcases h s hs with hb | hn | hc
  · exact .inl (ExtTreeMap.mem_erase.mpr ⟨hkeep, hb⟩)
  · exact .inr (.inl (ExtTreeMap.mem_erase.mpr ⟨hkeep, hn⟩))
  · exact .inr (.inr (ExtTreeMap.mem_erase.mpr ⟨hkeep, hc⟩))

end Changes

namespace Ledger

variable {β : Type} [Store β]

theorem grows_of_debit {l l' : Ledger β} {a : Address} {v : Quantity} (h : l.debit a v = .ok l') :
    l.top.Grows l'.top := by
  obtain ⟨-, rfl⟩ := eq_of_debit h
  exact .setBalance l.top a _

/-- Whoever receives a payment is written, be it of nothing. -/
theorem grows_of_transfer {l l' : Ledger β} {a target : Address} {v : Quantity}
    (h : l.transfer a target v = .ok l') : l.top.Grows l'.top ∧ l'.top.Written target := by
  obtain ⟨paid, hd, rfl⟩ := eq_of_transfer h
  exact ⟨(grows_of_debit hd).trans (.setBalance paid.top target _),
    .inl ExtTreeMap.mem_insert_self⟩

end Ledger

namespace Machine

variable {β : Type}

theorem grows_openFor (m : Machine) (k : Message) (target : Address) (l : Ledger β) :
    (∅ : Changes).Grows (m.openFor k target l).top := by
  have hcleared : (∅ : Changes).Grows ((l.push.wipeStorage target).setCode target []).top :=
    (Changes.Grows.wipeStorage ∅ target).trans (.setCode _ target [])
  unfold openFor prepare
  split
  · dsimp only
    split
    · exact hcleared.trans (.setNonce _ target 1)
    · exact hcleared
  · exact .refl ∅

theorem Deposited.grows {m : Machine} {p : Pending} {h h' : Halt} {dep : Deposit}
    {w w' : World β} (hd : m.Deposited p h w h' dep w') :
    w.ledger.top.Grows w'.ledger.top := by
  cases hd with
  | nothing => exact .refl _
  | failed => exact .refl _
  | stored => exact .setCode _ _ _

/-- What grew from an empty layer may be committed to the one below. -/
theorem grows_pop_commit {l l' : Ledger β} (hs : l.push.SameBelow l')
    (h : (∅ : Changes).Grows l'.top) : l.top.Grows (l'.pop .commit).top := by
  rw [hs.pop_of_push]
  exact .andThen l.top h

variable [Store β]

theorem grows_of_paid {m : Machine} {t : Terms} {k : Message} {l l' : Ledger β}
    (h : m.paid t k l = .ok l') :
    (∅ : Changes).Grows l'.top ∧ l'.top.Written (k.context t l).address := by
  obtain ⟨hg, hw⟩ := Ledger.grows_of_transfer h
  exact ⟨(m.grows_openFor k _ l).trans hg, hw⟩

theorem grows_leftOver (k : Message) (l : Ledger β) : l.top.Grows (k.leftOver l).top := by
  cases k with
  | call c => exact .refl _
  | create c =>
    unfold Message.leftOver
    dsimp only
    split
    · exact .refl _
    · next h => exact (Ledger.grows_of_transfer h).1

variable (m : Machine) (observer : Observer)

theorem grows_act (d : Nat) (c : Context) (e : Effect) (s : Substate) (w : World β)
    (hc : w.ledger.top.Written c.address) :
    w.ledger.top.Grows ((m.frame d c observer).act e s w).2.ledger.top := by
  cases e with
  | setStorage i v => exact .setStorage hc i v
  | log topics data => exact .refl _
  | refund amount => exact .refl _
  | selfDestruct b => exact (Changes.Grows.setBalance _ b _).trans (.setBalance _ c.address 0)

/-- The account of a frame is written, for its message has paid it: its words are
anchored. -/
theorem steady_grows : m.Steady observer
    (fun _ c _ (w : World β) _ w' =>
      w.ledger.top.Written c.address → w.ledger.top.Grows w'.ledger.top)
    (fun _ _ _ w _ w' => w.ledger.top.Grows w'.ledger.top) where
  refl := fun _ => .refl _
  trans h h' := fun hc => (h hc).trans (h' ((h hc).written _ hc))
  observe := by
    intro d c i s w _
    rw [(m.frame d c observer).ledger_observe]
    exact .refl _
  act hc := m.grows_act observer _ _ _ _ _ hc
  note := fun _ => .refl _
  call hm := fun _ => hm
  create hm := fun _ => (Changes.Grows.setNonce _ _ _).trans hm
  refuse := by
    intro d t k w _
    rw [ledger_refuse]
    exact grows_leftOver k w.ledger
  done := by
    intro d t k w o w' _ hr
    cases hr with
    | unpaid => exact .refl _
    | idle hp => exact grows_pop_commit (m.sameBelow_of_paid hp) (grows_of_paid hp).1
  close := by
    intro d t k w p w₁ h s w₂ h' dep w₃ _ hr _ hf hs hdep
    obtain ⟨hg, hc⟩ : (∅ : Changes).Grows w₁.ledger.top ∧
        w₁.ledger.top.Written p.context.address := by
      cases hr with
      | waiting hp => exact grows_of_paid hp
    have hran : (∅ : Changes).Grows w₃.ledger.top := hg.trans ((hf hc).trans hdep.grows)
    by_cases ho : (h'.ended p dep s).exception = none
    · rw [World.ledger_closed_of_none ho]
      exact grows_pop_commit (hs.trans hdep.sameBelow) hran
    · rw [World.ledger_closed_of_some ho, (hs.trans hdep.sameBelow).pop_revert_of_push]
      exact .refl _

end Machine

/-! Whole tasks. -/

namespace Ledger

variable {β : Type}

/-- No checkpoint is open, and the words of the root are anchored. -/
structure Settleable (l : Ledger β) : Prop where
  below : l.below = []
  anchored : l.top.Anchored

theorem Settleable.ofBase (base : β) : (ofBase base).Settleable :=
  ⟨rfl, Changes.anchored_empty⟩

theorem Settleable.setBalance {l : Ledger β} (h : l.Settleable) (a : Address) (v : Quantity) :
    (l.setBalance a v).Settleable :=
  ⟨h.below, (Changes.Grows.setBalance l.top a v).anchored h.anchored⟩

theorem Settleable.deleteAll {l : Ledger β} (h : l.Settleable) (condemned : ExtTreeSet Address) :
    (condemned.foldl .delete l).Settleable :=
  deleteAll_induction (fun _ a _ hl => ⟨hl.below, hl.anchored.delete a⟩) h

end Ledger

namespace Execution

variable {β : Type} [Store β]

theorem settleable_send {m : Machine} (hi : m.interpreter.Confined) {observer : Observer}
    {d : Nat} {t : Terms} {k : Message} {w w' : World β} {o : Outcome}
    (hs : m.send observer d t k w = (.closed o, w')) (hl : w.ledger.Settleable) :
    w'.ledger.Settleable := by
  obtain ⟨o₁, w₁, he, hb, hg⟩ := (m.steady_grows observer).conduct.send hi d t k w
  rw [hs] at he
  cases he
  exact ⟨hb.below.trans hl.below, hg.anchored hl.anchored⟩

theorem settleable_conclude (x : Execution) (a : Accepted) (o : Outcome) (refunded : Quantity)
    {w : World β} (h : w.ledger.Settleable) :
    (x.conclude a o refunded w).2.ledger.Settleable := by
  have hpaid : (payFees x.machine a o.gas w.ledger).Settleable :=
    (h.setBalance a.sender _).setBalance x.machine.block.author _
  rw [x.ledger_conclude]
  split
  · exact hpaid.deleteAll o.substate.condemned
  · exact hpaid

/-- A task leaves no checkpoint open and no word without its account. -/
theorem Completed.settleable {x x' : Execution} (hi : x.machine.interpreter.Confined)
    {observer : Observer} {task : Task} {w w' : World β} {r : Except Error Unit}
    (h : x.Completed observer w task r x' w') (hl : w.ledger.Settleable) :
    w'.ledger.Settleable := by
  cases h with
  | refused =>
    rw [World.ledger_remarks]
    exact hl
  | message path hs => exact settleable_send hi hs hl
  | @finalized a o o' refunded w₁ path ha hs hd =>
    have hcounted : (w.ledger.bumpNonce a.sender).Settleable :=
      ⟨hl.below, (Changes.Grows.setNonce w.ledger.top a.sender _).anchored hl.anchored⟩
    exact settleable_conclude _ a o' refunded
      (settleable_send hi hs (hcounted.setBalance a.sender _))

end Execution

/-! Settling. -/

/-- Anchored change sets touch what they write besides storage, and nothing else. -/
theorem Changes.Anchored.mem_touched {c : Changes} (h : c.Anchored) (a : Address) :
    a ∈ c.touched ↔ c.Written a := by
  rw [Changes.mem_touched]
  constructor
  · rintro (hb | hn | hc | ⟨i, hi⟩)
    · exact .inl hb
    · exact .inr (.inl hn)
    · exact .inr (.inr hc)
    · exact h ⟨a, i⟩ hi
  · rintro (hb | hn | hc)
    · exact .inl hb
    · exact .inr (.inl hn)
    · exact .inr (.inr (.inl hc))

namespace State

theorem present_eq (s : State) (a : Address) : Store.present s a = s[a]?.isSome := by
  have hdecide : Store.present s a = true ↔ a ∈ s := decide_eq_true_iff
  rw [Bool.eq_iff_iff, hdecide, ExtTreeMap.mem_iff_isSome_getElem?]

/-- One change set on top of the accounts. -/
theorem present_of_root (s : State) (c : Changes) (a : Address) :
    (⟨s, c, []⟩ : Ledger State).present a =
      if c.Written a then true else if a ∈ c.deleted then false else s[a]?.isSome := by
  have hone : (⟨s, c, []⟩ : Ledger State).present a =
      (c.present? a).getD (Store.present s a) := by
    simp [Ledger.present, Ledger.layers]
  rw [← present_eq, hone]
  change (if c.Written a then some true
    else if a ∈ c.deleted then some false else none).getD (Store.present s a) = _
  split
  · rfl
  · split <;> rfl

/-- Accounts with an anchored change set written into them are the ones that are there with
the change set on top. -/
theorem present_write (s : State) {c : Changes} (h : c.Anchored) (a : Address) :
    Store.present (s.write c) a = (⟨s, c, []⟩ : Ledger State).present a := by
  rw [present_eq, present_of_root, getElem?_write, getElem?_clear]
  simp only [h.mem_touched]
  split
  · rfl
  · split
    · rfl
    · split
      · exact Option.isSome_map
      · rfl

end State

end Transact
