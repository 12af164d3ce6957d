import Transact.Settlement.Lemmas

/-!
The accounts at rest under any change sets. Writing one twice is as good as writing it
once, and the accounts stay canonical: no zero word is stored, and as long as emptied
accounts go there is no empty one. Main statements: `settle_settle` and
`settlings_stay_canonical`.
-/

namespace Transact

open Std (ExtTreeMap)

/-- Writing over a part of an account that was written the same way before. -/
theorem getD_ite_getD_ite {α : Type} {p : Prop} [Decidable p] (written : Option α) (gone v : α) :
    written.getD (if p then gone else written.getD (if p then gone else v)) =
      written.getD (if p then gone else v) := by
  cases written with
  | some _ => rfl
  | none => by_cases h : p <;> simp [h]

/-- What reads `v` after a write reads so if it was `v` before. -/
theorem getD_eq_of_getD_eq {α : Type} {written : Option α} {u v : α} (h : written.getD u = v) :
    written.getD v = v := by
  cases written with
  | some _ => exact h
  | none => rfl

namespace Account

/-- The account at `a` after the deletions and storage resets of `c`. -/
def cleared (account : Account) (c : Changes) (a : Address) : Account :=
  if a ∈ c.deleted then .fresh
  else if a ∈ c.wiped then { account with storage := ∅ }
  else account

/-- The account at `a` after all of `c`. -/
def rewritten (account : Account) (c : Changes) (a : Address) : Account :=
  (account.cleared c a).update c a

variable (account : Account) (c : Changes) (a : Address)

theorem balance_rewritten : (account.rewritten c a).balance =
    c.balances[a]?.getD (if a ∈ c.deleted then 0 else account.balance) := by
  unfold rewritten cleared
  split
  · rfl
  · split <;> rfl

theorem nonce_rewritten : (account.rewritten c a).nonce =
    c.nonces[a]?.getD (if a ∈ c.deleted then 0 else account.nonce) := by
  unfold rewritten cleared
  split
  · rfl
  · split <;> rfl

theorem code_rewritten : (account.rewritten c a).code =
    c.codes[a]?.getD (if a ∈ c.deleted then [] else account.code) := by
  unfold rewritten cleared
  split
  · rfl
  · split <;> rfl

theorem getElem?_storage_rewritten (i : Word) : (account.rewritten c a).storage[i]? =
    match c.words[(⟨a, i⟩ : Slot)]? with
    | some v => if v = 0 then none else some v
    | none => if a ∈ c.deleted ∨ a ∈ c.wiped then none else account.storage[i]? := by
  unfold rewritten
  rw [getElem?_storage_update]
  cases c.words[(⟨a, i⟩ : Slot)]? with
  | some v => rfl
  | none =>
    unfold cleared
    by_cases hd : a ∈ c.deleted
    · simp [hd, fresh]
    · by_cases hw : a ∈ c.wiped <;> simp [hd, hw]

theorem rewritten_rewritten :
    (account.rewritten c a).rewritten c a = account.rewritten c a := by
  ext1
  case nonce =>
    rw [nonce_rewritten, nonce_rewritten]
    exact getD_ite_getD_ite _ _ _
  case balance =>
    rw [balance_rewritten, balance_rewritten]
    exact getD_ite_getD_ite _ _ _
  case code =>
    rw [code_rewritten, code_rewritten]
    exact getD_ite_getD_ite _ _ _
  case storage =>
    apply ExtTreeMap.ext_getElem?
    intro i
    rw [getElem?_storage_rewritten, getElem?_storage_rewritten]
    cases c.words[(⟨a, i⟩ : Slot)]? with
    | some v => rfl
    | none =>
      dsimp only
      split <;> rfl

variable {account c a}

theorem isEmpty_iff : account.isEmpty ↔
    account.balance = 0 ∧ account.nonce = 0 ∧ account.code = [] := by
  simp [isEmpty, and_assoc]

/-- What `c` leaves empty it also leaves empty where there was nothing. -/
theorem isEmpty_rewritten_fresh (h : (account.rewritten c a).isEmpty) :
    (fresh.rewritten c a).isEmpty := by
  rw [isEmpty_iff, balance_rewritten, nonce_rewritten, code_rewritten] at h ⊢
  obtain ⟨hb, hn, hc⟩ := h
  simp only [fresh, ite_self]
  exact ⟨getD_eq_of_getD_eq hb, getD_eq_of_getD_eq hn, getD_eq_of_getD_eq hc⟩

/-- No zero word is stored. -/
def Compact (account : Account) : Prop := ∀ i : Word, account.storage[i]? ≠ some 0

theorem compact_fresh : fresh.Compact := by
  intro i
  simp [fresh]

theorem Compact.rewritten (h : account.Compact) : (account.rewritten c a).Compact := by
  intro i
  rw [getElem?_storage_rewritten]
  split
  · split
    · simp
    · next hv => simpa using hv
  · split
    · simp
    · exact h i

end Account

namespace State

variable (s : State) (c : Changes) (a : Address)

theorem account_write_eq_rewritten : (s.write c).account a = (s.account a).rewritten c a := by
  rw [account_write, account_clear]
  rfl

theorem getElem?_write_of_touched (h : a ∈ c.touched) :
    (s.write c)[a]? = some ((s.account a).rewritten c a) := by
  rw [getElem?_write, if_pos h, account_clear]
  rfl

theorem write_write : (s.write c).write c = s.write c := by
  apply ExtTreeMap.ext_getElem?
  intro a
  by_cases h : a ∈ c.touched
  · rw [getElem?_write_of_touched _ _ _ h, getElem?_write_of_touched _ _ _ h,
      account_write_eq_rewritten, Account.rewritten_rewritten]
  · -- only deletions and storage resets reach the account
    rw [getElem?_write, if_neg h, getElem?_clear, getElem?_write, if_neg h, getElem?_clear]
    by_cases hd : a ∈ c.deleted
    · rw [if_pos hd, if_pos hd]
    · by_cases hw : a ∈ c.wiped
      · simp only [hd, hw, if_false, if_true, Option.map_map]
        rfl
      · simp [hd, hw]

variable {s a} in
/-- What `c` makes of an account depends on that account alone. -/
theorem getElem?_write_congr {t : State} (h : s[a]? = t[a]?) :
    (s.write c)[a]? = (t.write c)[a]? := by
  rw [getElem?_write, getElem?_write, account_clear, account_clear, getElem?_clear,
    getElem?_clear, account_congr h, h]

theorem mem_emptied_iff_rewritten :
    a ∈ s.emptied c ↔ a ∈ c.touched ∧ ((s.account a).rewritten c a).isEmpty := by
  rw [mem_emptied, account_write_eq_rewritten]

/-- An account that was emptied and has gone is made anew, and emptied again. -/
theorem settle_true_settle_true : (s.settle c true).settle c true = s.settle c true := by
  apply ExtTreeMap.ext_getElem?
  intro a
  have hsettled := s.getElem?_settle_true c a
  rw [getElem?_settle_true]
  by_cases he : a ∈ s.emptied c
  · rw [if_pos he] at hsettled
    have hfresh : (s.settle c true).account a = .fresh := by
      unfold account
      rw [hsettled]
      rfl
    have hagain : a ∈ (s.settle c true).emptied c := by
      rw [mem_emptied_iff_rewritten] at he ⊢
      rw [hfresh]
      exact ⟨he.1, Account.isEmpty_rewritten_fresh he.2⟩
    rw [if_pos hagain, hsettled]
  · rw [if_neg he] at hsettled
    have hwritten : ((s.settle c true).write c)[a]? = (s.write c)[a]? := by
      rw [getElem?_write_congr c hsettled, write_write]
    have hagain : a ∉ (s.settle c true).emptied c := by
      intro ha
      apply he
      rw [mem_emptied] at ha ⊢
      rw [account_congr hwritten] at ha
      exact ha
    rw [if_neg hagain, hwritten, hsettled]

/-- Settling a change set twice leaves the same accounts as settling it once, whatever it
names and whether emptied accounts go or stay. -/
theorem settle_settle (deleteEmpty : Bool) :
    (s.settle c deleteEmpty).settle c deleteEmpty = s.settle c deleteEmpty := by
  cases deleteEmpty with
  | false => exact s.write_write c
  | true => exact s.settle_true_settle_true c

/-- No account stores a zero word. -/
def Compact : Prop := ∀ (a : Address) (account : Account), s[a]? = some account → account.Compact

/-- No account is empty. -/
def Pruned : Prop := ∀ (a : Address) (account : Account), s[a]? = some account → ¬ account.isEmpty

variable {s}

theorem Compact.account (h : s.Compact) (a : Address) : (s.account a).Compact := by
  unfold State.account
  cases hs : s[a]? with
  | none => exact Account.compact_fresh
  | some account => exact h a account hs

theorem Compact.write (h : s.Compact) : (s.write c).Compact := by
  intro a account ha
  rw [← account_of_getElem? ha, account_write_eq_rewritten]
  exact (h.account a).rewritten

/-- Without an account of its own nothing is stored. -/
theorem Compact.settle (h : s.Compact) (deleteEmpty : Bool) :
    (s.settle c deleteEmpty).Compact := by
  cases deleteEmpty with
  | false => exact h.write c
  | true =>
    intro a account ha
    rw [getElem?_settle_true] at ha
    split at ha
    · cases ha
    · exact h.write c a account ha

/-- An account that is left empty was touched, and goes: deletions leave no account, and
storage resets leave balance, nonce and code. -/
theorem Pruned.settle (h : s.Pruned) : (s.settle c true).Pruned := by
  intro a account ha hempty
  rw [getElem?_settle_true] at ha
  split at ha
  · cases ha
  · next he =>
    by_cases ht : a ∈ c.touched
    · apply he
      rw [mem_emptied, account_of_getElem? ha]
      exact ⟨ht, hempty⟩
    · rw [getElem?_write, if_neg ht, getElem?_clear] at ha
      split at ha
      · cases ha
      · split at ha
        · obtain ⟨before, hb, rfl⟩ := Option.map_eq_some_iff.mp ha
          exact h a before hb hempty
        · exact h a account ha hempty

/-- The accounts on the way through change sets that are settled one after the other, each
with or without the emptied accounts. -/
def settlings : State → List (Changes × Bool) → List State
  | s, [] => [s]
  | s, (c, deleteEmpty) :: rest => s :: (s.settle c deleteEmpty).settlings rest

/-- What holds first and is kept by each settling holds all the way. -/
theorem forall_mem_settlings {P : State → Prop} {cs : List (Changes × Bool)} (hs : P s)
    (hstep : ∀ t, ∀ p ∈ cs, P t → P (t.settle p.1 p.2)) : ∀ t ∈ s.settlings cs, P t := by
  induction cs generalizing s with
  | nil =>
    intro t ht
    cases List.mem_singleton.mp ht
    exact hs
  | cons p cs ih =>
    intro t ht
    rcases List.mem_cons.mp ht with rfl | ht
    · exact hs
    · refine ih (hstep s p List.mem_cons_self hs) ?_ t ht
      exact fun t q hq => hstep t q (List.mem_cons_of_mem p hq)

/-- Whatever change sets are settled one after the other: if at first no zero word is
stored, none ever is; and if there is no empty account either, and emptied accounts go
each time, then there never is one. -/
theorem settlings_stay_canonical (cs : List (Changes × Bool)) (hs : s.Compact) :
    (∀ t ∈ s.settlings cs, t.Compact) ∧
    (s.Pruned → (∀ p ∈ cs, p.2 = true) → ∀ t ∈ s.settlings cs, t.Pruned) := by
  constructor
  · exact forall_mem_settlings hs fun t p _ ht => ht.settle p.1 p.2
  · intro hpruned hall
    refine forall_mem_settlings hpruned fun t p hp ht => ?_
    rw [hall p hp]
    exact ht.settle p.1

/-- Account 7 is emptied and goes, account 8 gets a word and then loses it. -/
theorem settlings_of_emptied_account :
    let seven : Account := ⟨1, 5, [], (∅ : ExtTreeMap Word Word).insert 0 1⟩
    let s : State := (∅ : State).insert 7 seven
    let emptied : Changes := ((∅ : Changes).setBalance 7 0).setNonce 7 0
    let cs := [((emptied.setBalance 8 1).setStorage 8 0 9, true),
      ((∅ : Changes).setStorage 8 0 0, true)]
    s.Compact ∧ s.Pruned ∧ (∀ t ∈ s.settlings cs, t.Compact ∧ t.Pruned) ∧
      (s.settlings cs).map (·.keys) = [[7], [8], [8]] := by
  intro seven s emptied cs
  have hone : ∀ (a : Address) (account : Account), s[a]? = some account → account = seven := by
    intro a account h
    simp only [s, ExtTreeMap.getElem?_insert] at h
    split at h
    · exact (Option.some.inj h).symm
    · simp at h
  have hcompact : s.Compact := by
    intro a account h i
    rw [hone a account h, ExtTreeMap.getElem?_insert]
    split
    · decide
    · simp
  have hpruned : s.Pruned := by
    intro a account h
    rw [hone a account h]
    decide
  obtain ⟨hc, hp⟩ := settlings_stay_canonical cs hcompact
  refine ⟨hcompact, hpruned, fun t ht => ⟨hc t ht, hp hpruned (by simp [cs]) t ht⟩, ?_⟩
  decide +kernel

end State

end Transact
