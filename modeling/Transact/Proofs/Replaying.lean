import Transact.Settlement.Lemmas

/-!
Settling a change set is writing it entry by entry: the deletions first, then the storage
resets, then balances, nonces, codes and words, each of which makes the account that it
misses. Main statement: `State.replay_eq_settle`.
-/

namespace Transact

open Std (ExtTreeMap ExtTreeSet)

/-- One write to the account at `address`. -/
structure Write where
  address : Address
  apply : Account → Account

namespace Account

/-- A zero word is not stored. -/
def store (account : Account) (i v : Word) : Account :=
  { account with storage := if v = 0 then account.storage.erase i else account.storage.insert i v }

/-- The account at `a` after those of the writes that are to it. -/
def written (account : Account) (ws : List Write) (a : Address) : Account :=
  ws.foldl (fun account w => if w.address = a then w.apply account else account) account

end Account

/-- The writes of a change set in their order. -/
def Changes.writes (c : Changes) : List Write :=
  c.balances.toList.map (fun p => ⟨p.1, fun account => { account with balance := p.2 }⟩) ++
  c.nonces.toList.map (fun p => ⟨p.1, fun account => { account with nonce := p.2 }⟩) ++
  c.codes.toList.map (fun p => ⟨p.1, fun account => { account with code := p.2 }⟩) ++
  c.words.toList.map fun p => ⟨p.1.address, fun account => account.store p.1.index p.2⟩

namespace State

/-- Writes to one account after the other. A missing one is made. -/
def writeAll (s : State) (ws : List Write) : State :=
  ws.foldl (fun s w => s.insert w.address (w.apply (s.account w.address))) s

/-- Writes `c` entry by entry. With `deleteEmpty` the accounts written to that are empty
then go. -/
def replay (s : State) (c : Changes) (deleteEmpty : Bool) : State :=
  let kept := c.deleted.foldl (fun t a => t.erase a) s
  let cleared := c.wiped.foldl
    (fun t a => t.modify a fun account => { account with storage := ∅ }) kept
  let written := writeAll cleared c.writes
  if deleteEmpty then
    (ExtTreeSet.ofList (c.writes.map Write.address)).foldl
      (fun t a => if t[a]?.any Account.isEmpty then t.erase a else t) written
  else written

end State

section Entries

variable {κ α : Type} [Ord κ] [Std.TransOrd κ] [Std.LawfulEqOrd κ] {m : ExtTreeMap κ α} {k : κ}

theorem ne_of_mem_toList (h : m[k]? = none) : ∀ p ∈ m.toList, p.1 ≠ k := by
  rintro ⟨k, v⟩ hp rfl
  cases h.symm.trans (ExtTreeMap.mem_toList_iff_getElem?_eq_some.mp hp)

/-- No two entries have the same key. -/
theorem toList_eq_append {v : α} (h : m[k]? = some v) :
    ∃ ps qs, m.toList = ps ++ (k, v) :: qs ∧ (∀ p ∈ ps, p.1 ≠ k) ∧ ∀ q ∈ qs, q.1 ≠ k := by
  obtain ⟨ps, qs, hsplit⟩ :=
    List.append_of_mem (ExtTreeMap.mem_toList_iff_getElem?_eq_some.mpr h)
  have hdistinct := m.distinct_keys_toList
  rw [hsplit, List.pairwise_append, List.pairwise_cons] at hdistinct
  obtain ⟨-, ⟨hright, -⟩, hleft⟩ := hdistinct
  refine ⟨ps, qs, hsplit, ?_, ?_⟩
  · intro p hp hpk
    exact hleft p hp (k, v) List.mem_cons_self (Std.compare_eq_iff_eq.mpr hpk)
  · intro q hq hqk
    exact hright q hq (Std.compare_eq_iff_eq.mpr hqk.symm)

end Entries

/-! One account. -/

namespace Account

variable (account : Account) (a : Address)

theorem written_append (ws ws' : List Write) :
    account.written (ws ++ ws') a = (account.written ws a).written ws' a := List.foldl_append

variable {a}

theorem written_cons_of_eq {w : Write} (h : w.address = a) (ws : List Write) :
    account.written (w :: ws) a = (w.apply account).written ws a := by
  unfold written
  rw [List.foldl_cons, if_pos h]

theorem written_cons_of_ne {w : Write} (h : w.address ≠ a) (ws : List Write) :
    account.written (w :: ws) a = account.written ws a := by
  unfold written
  rw [List.foldl_cons, if_neg h]

theorem written_of_ne {ws : List Write} (h : ∀ w ∈ ws, w.address ≠ a) :
    account.written ws a = account := by
  induction ws with
  | nil => rfl
  | cons w ws ih =>
    obtain ⟨hw, hws⟩ := List.forall_mem_cons.mp h
    rw [account.written_cons_of_ne hw, ih hws]

variable (a)

/-- Of writes made from a map, one account sees at most one. -/
theorem written_toList {α : Type} (m : ExtTreeMap Address α) (f : α → Account → Account) :
    account.written (m.toList.map fun p => ⟨p.1, f p.2⟩) a =
      match m[a]? with
      | some v => f v account
      | none => account := by
  have hothers : ∀ (account : Account) (ps : List (Address × α)), (∀ p ∈ ps, p.1 ≠ a) →
      account.written (ps.map fun p => ⟨p.1, f p.2⟩) a = account :=
    fun account ps h => account.written_of_ne (List.forall_mem_map.mpr h)
  cases h : m[a]? with
  | none => exact hothers account _ (ne_of_mem_toList h)
  | some v =>
    obtain ⟨ps, qs, hsplit, hps, hqs⟩ := toList_eq_append h
    rw [hsplit, List.map_append, List.map_cons, written_append, hothers account ps hps,
      written_cons_of_eq account rfl, hothers _ qs hqs]

theorem getElem?_store (i j v : Word) : (account.store i v).storage[j]? =
    if i = j then if v = 0 then none else some v else account.storage[j]? := by
  unfold store
  dsimp only
  split
  · simp [ExtTreeMap.getElem?_erase]
  · simp [ExtTreeMap.getElem?_insert]

/-- Writes of words change nothing but the storage. -/
theorem written_words (ps : List (Slot × Word)) :
    ∃ storage, account.written
      (ps.map fun p => ⟨p.1.address, fun account => account.store p.1.index p.2⟩) a =
      { account with storage } := by
  induction ps generalizing account with
  | nil => exact ⟨account.storage, rfl⟩
  | cons p ps ih =>
    rw [List.map_cons]
    by_cases hp : p.1.address = a
    · obtain ⟨storage, hs⟩ := ih (account.store p.1.index p.2)
      exact ⟨storage, (account.written_cons_of_eq hp _).trans hs⟩
    · obtain ⟨storage, hs⟩ := ih account
      exact ⟨storage, (account.written_cons_of_ne hp _).trans hs⟩

theorem getElem?_written_words (m : ExtTreeMap Slot Word) (i : Word) : (account.written
      (m.toList.map fun p => ⟨p.1.address, fun account => account.store p.1.index p.2⟩)
      a).storage[i]? =
    match m[(⟨a, i⟩ : Slot)]? with
    | some v => if v = 0 then none else some v
    | none => account.storage[i]? := by
  have hothers : ∀ (account : Account) (ps : List (Slot × Word)), (∀ p ∈ ps, p.1 ≠ ⟨a, i⟩) →
      (account.written (ps.map fun p => ⟨p.1.address, fun account => account.store p.1.index p.2⟩)
        a).storage[i]? = account.storage[i]? := by
    intro account ps h
    induction ps generalizing account with
    | nil => rfl
    | cons p ps ih =>
      obtain ⟨hp, hps⟩ := List.forall_mem_cons.mp h
      rw [List.map_cons]
      by_cases hpa : p.1.address = a
      · have hi : p.1.index ≠ i := fun hi => hp (by rw [← hpa, ← hi])
        rw [account.written_cons_of_eq hpa, ih _ hps, getElem?_store, if_neg hi]
      · rw [account.written_cons_of_ne hpa, ih _ hps]
  cases h : m[(⟨a, i⟩ : Slot)]? with
  | none => exact hothers account _ (ne_of_mem_toList h)
  | some v =>
    obtain ⟨ps, qs, hsplit, -, hqs⟩ := toList_eq_append h
    rw [hsplit, List.map_append, List.map_cons, written_append, written_cons_of_eq _ rfl,
      hothers _ qs hqs, getElem?_store, if_pos rfl]

/-- Entry by entry or all at once. -/
theorem written_writes (c : Changes) : account.written c.writes a = account.update c a := by
  let before : Account :=
    { account with
      balance := c.balances[a]?.getD account.balance
      nonce := c.nonces[a]?.getD account.nonce
      code := c.codes[a]?.getD account.code }
  have hwritten : account.written c.writes a = before.written
      (c.words.toList.map fun p => ⟨p.1.address, fun account => account.store p.1.index p.2⟩)
      a := by
    unfold Changes.writes
    rw [written_append, written_append, written_append,
      account.written_toList a c.balances fun v account => { account with balance := v },
      written_toList _ a c.nonces fun v account => { account with nonce := v },
      written_toList _ a c.codes fun v account => { account with code := v }]
    congr 1
    unfold before
    cases c.balances[a]? <;> cases c.nonces[a]? <;> cases c.codes[a]? <;> rfl
  obtain ⟨storage, hs⟩ := before.written_words a c.words.toList
  have hstorage : storage = (account.update c a).storage := by
    apply ExtTreeMap.ext_getElem?
    intro i
    have hi := before.getElem?_written_words a c.words i
    rw [hs] at hi
    exact hi.trans (account.getElem?_storage_update c a i).symm
  rw [hwritten, hs, hstorage]
  rfl

end Account

/-! All accounts. -/

namespace State

variable (s : State) (c : Changes) (a : Address)

/-- An account sees the writes to it in their order. -/
theorem getElem?_writeAll (ws : List Write) : (s.writeAll ws)[a]? =
    if a ∈ ws.map Write.address then some ((s.account a).written ws a) else s[a]? := by
  induction ws generalizing s with
  | nil => rfl
  | cons w ws ih =>
    let t : State := s.insert w.address (w.apply (s.account w.address))
    have hcons : s.writeAll (w :: ws) = t.writeAll ws := rfl
    rw [hcons, ih, List.map_cons]
    by_cases hw : w.address = a
    · have hmade : t[a]? = some (w.apply (s.account a)) := by
        simp [t, hw]
      rw [hmade, account_of_getElem? hmade, (s.account a).written_cons_of_eq hw,
        if_pos (List.mem_cons.mpr (.inl hw.symm))]
      split
      · rfl
      · next hws =>
        rw [Account.written_of_ne]
        exact fun w' hw' he => hws (List.mem_map.mpr ⟨w', hw', he⟩)
    · have hold : t[a]? = s[a]? := by
        simp [t, ExtTreeMap.getElem?_insert, hw]
      rw [hold, account_congr hold, (s.account a).written_cons_of_ne hw]
      simp [Ne.symm hw]

theorem getElem?_foldl_modify {f : Account → Account}
    (hf : ∀ account, f (f account) = f account) (l : List Address) (t : State) :
    (l.foldl (fun t a => t.modify a f) t)[a]? = if a ∈ l then t[a]?.map f else t[a]? := by
  induction l generalizing t with
  | nil => simp
  | cons b l ih =>
    rw [List.foldl_cons, ih, ExtTreeMap.getElem?_modify]
    by_cases hb : b = a
    · subst hb
      cases t[b]? <;> simp [hf]
    · simp [hb, Ne.symm hb]

theorem clear_eq_foldl : c.wiped.foldl
    (fun t a => t.modify a fun account => { account with storage := ∅ })
    (c.deleted.foldl (fun t a => t.erase a) s) = s.clear c := by
  apply ExtTreeMap.ext_getElem?
  intro a
  have hwipe := getElem?_foldl_modify a (f := fun account => { account with storage := ∅ })
    fun _ => rfl
  rw [ExtTreeSet.foldl_eq_foldl_toList, ExtTreeSet.foldl_eq_foldl_toList, hwipe,
    getElem?_foldl_erase, getElem?_clear]
  simp only [ExtTreeSet.mem_toList]
  by_cases hd : a ∈ c.deleted
  · simp [hd]
  · simp [hd]

theorem touched_eq_writes : c.touched = .ofList (c.writes.map Write.address) := by
  have hmaps : c.writes.map Write.address = c.balances.toList.map Prod.fst ++
      c.nonces.toList.map Prod.fst ++ c.codes.toList.map Prod.fst ++
      (c.words.toList.map Prod.fst).map Slot.address := by
    unfold Changes.writes
    simp only [List.map_append, List.map_map]
    rfl
  rw [hmaps]
  simp only [ExtTreeMap.map_fst_toList_eq_keys]
  rfl

theorem writeAll_eq_write : (s.clear c).writeAll c.writes = s.write c := by
  apply ExtTreeMap.ext_getElem?
  intro a
  have hmem : a ∈ c.writes.map Write.address ↔ a ∈ c.touched := by
    rw [touched_eq_writes, ExtTreeSet.mem_ofList]
    simp
  rw [getElem?_writeAll, getElem?_write, Account.written_writes]
  simp only [hmem]

/-- Removing what is empty decides about each account alone. -/
theorem getElem?_foldl_erase_empty (l : List Address) (t : State) :
    (l.foldl (fun t a => if t[a]?.any Account.isEmpty then t.erase a else t) t)[a]? =
      if a ∈ l ∧ t[a]?.any Account.isEmpty then none else t[a]? := by
  induction l generalizing t with
  | nil => simp
  | cons b l ih =>
    rw [List.foldl_cons, ih]
    by_cases hb : b = a
    · subst hb
      by_cases he : t[b]?.any Account.isEmpty
      · simp [he]
      · simp [he]
    · have hsame : (if t[b]?.any Account.isEmpty then t.erase b else t)[a]? = t[a]? := by
        split
        · simp [ExtTreeMap.getElem?_erase, hb]
        · rfl
      rw [hsame]
      simp [Ne.symm hb]

/-- Settling a change set is writing it entry by entry. -/
theorem replay_eq_settle (deleteEmpty : Bool) :
    s.replay c deleteEmpty = s.settle c deleteEmpty := by
  unfold replay
  dsimp only
  rw [clear_eq_foldl, writeAll_eq_write, ← touched_eq_writes]
  cases deleteEmpty with
  | false => rfl
  | true =>
    apply ExtTreeMap.ext_getElem?
    intro a
    rw [if_pos rfl, ExtTreeSet.foldl_eq_foldl_toList, getElem?_foldl_erase_empty,
      getElem?_settle_true]
    have hempty : (a ∈ c.touched.toList ∧ (s.write c)[a]?.any Account.isEmpty) ↔
        a ∈ s.emptied c := by
      rw [mem_emptied, ExtTreeSet.mem_toList]
      refine and_congr_right fun ht => ?_
      have hwritten := s.getElem?_write c a
      rw [if_pos ht] at hwritten
      rw [account_of_getElem? hwritten, hwritten]
      rfl
    simp only [hempty]

end State

end Transact
