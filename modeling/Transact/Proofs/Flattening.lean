import Transact.Ledger.Lemmas
import Transact.Proofs.Balanced

/-!
Checkpoints leave no mark. `flatten` leaves out of a sequence what was reverted, and of
what was committed the opening and the closing alone. Main statement:
`checkpoints_leave_no_mark`, that the flat sequence gives the same changes and the same
answers.
-/

namespace Transact.Ledger

/-! The flat sequence. -/

section Flatten

variable {α : Type} (op : α → Operation)

/-- `kept` is what the innermost checkpoint holds so far, `outer` what the others held
when the next one was opened. -/
def flattenFrom : (outer : List (List α)) → (kept : List α) → List α → List α
  | _, kept, [] => kept
  | outer, kept, x :: xs =>
    match op x with
    | .push => flattenFrom (kept :: outer) [] xs
    | .pop v =>
      match outer, v with
      | [], _ => flattenFrom [] kept xs
      | before :: outer, .commit => flattenFrom outer (before ++ kept) xs
      | before :: outer, .revert => flattenFrom outer before xs
    | _ => flattenFrom outer (kept ++ [x]) xs

/-- The entries of `xs` that neither open nor close a checkpoint, but for those between
the opening of a checkpoint and its reversal. -/
def flatten (xs : List α) : List α := flattenFrom op [] [] xs

variable {op} {x y : α} {outer : List (List α)} {kept xs ys flat flat' : List α} {v : Verdict}

theorem flattenFrom_flat (h : (op x).Flat) :
    flattenFrom op outer kept (x :: xs) = flattenFrom op outer (kept ++ [x]) xs := by
  rw [flattenFrom]
  cases hx : op x with
  | push => rw [hx] at h; exact h.elim
  | pop v => rw [hx] at h; exact h.elim
  | _ => rfl

theorem flattenFrom_push (h : op x = .push) :
    flattenFrom op outer kept (x :: xs) = flattenFrom op (kept :: outer) [] xs := by
  rw [flattenFrom, h]

theorem flattenFrom_pop (h : op x = .pop v) (before : List α) :
    flattenFrom op (before :: outer) kept (x :: xs) =
      flattenFrom op outer (if v = .commit then before ++ kept else before) xs := by
  rw [flattenFrom, h]
  cases v <;> rfl

variable (op) in
/-- Whatever is open, `xs` adds `flat` to what is kept, and leaves the rest as it is. -/
def Flattens (xs flat : List α) : Prop :=
  ∀ outer kept ys,
    flattenFrom op outer kept (xs ++ ys) = flattenFrom op outer (kept ++ flat) ys

namespace Flattens

theorem flatten_eq (h : Flattens op xs flat) : flatten op xs = flat := by
  have h := h [] [] []
  rw [List.append_nil] at h
  exact h

theorem nil : Flattens op [] [] := by
  intro outer kept ys
  rw [List.append_nil, List.nil_append]

theorem cons (hx : (op x).Flat) (h : Flattens op xs flat) : Flattens op (x :: xs) (x :: flat) := by
  intro outer kept ys
  rw [List.cons_append, flattenFrom_flat hx, h, List.append_assoc, List.singleton_append]

theorem nested (hx : op x = .push) (hxs : Flattens op xs flat) (hy : op y = .pop v)
    (hys : Flattens op ys flat') :
    Flattens op (x :: (xs ++ y :: ys)) ((if v = .commit then flat else []) ++ flat') := by
  intro outer kept rest
  rw [List.cons_append, flattenFrom_push hx, List.append_assoc, hxs, List.cons_append,
    flattenFrom_pop hy, hys]
  cases v
  · exact congrArg (flattenFrom op outer · rest) (List.append_assoc _ _ _)
  · rfl

end Flattens

/-- By induction on how the entries are nested. -/
theorem Balanced.flattens {ops : List Operation} (h : Balanced ops) {xs : List α}
    (hx : xs.map op = ops) : Flattens op xs (flatten op xs) := by
  induction h generalizing xs with
  | nil =>
    cases List.map_eq_nil_iff.mp hx
    exact .nil
  | flat hop _ ih =>
    obtain ⟨x, rest, rfl, rfl, hrest⟩ := List.map_eq_cons_iff.mp hx
    have hflat := Flattens.cons hop (ih hrest)
    rw [hflat.flatten_eq]
    exact hflat
  | nested v _ _ ihi ih =>
    obtain ⟨x, rest, rfl, hpush, hrest⟩ := List.map_eq_cons_iff.mp hx
    obtain ⟨inner, rest, rfl, hinner, hrest⟩ := List.map_eq_append_iff.mp hrest
    obtain ⟨y, after, rfl, hpop, hafter⟩ := List.map_eq_cons_iff.mp hrest
    have hnested := Flattens.nested hpush (ihi hinner) hpop (ih hafter)
    rw [hnested.flatten_eq]
    exact hnested

theorem flatten_cons (hx : (op x).Flat) (h : Balanced (xs.map op)) :
    flatten op (x :: xs) = x :: flatten op xs :=
  (Flattens.cons hx (h.flattens rfl)).flatten_eq

/-- What is between the opening and the closing of a checkpoint is kept if it is
committed. -/
theorem flatten_nested (hx : op x = .push) (hxs : Balanced (xs.map op)) (hy : op y = .pop v)
    (hys : Balanced (ys.map op)) :
    flatten op (x :: (xs ++ y :: ys)) =
      (if v = .commit then flatten op xs else []) ++ flatten op ys :=
  (Flattens.nested hx (hxs.flattens rfl) hy (hys.flattens rfl)).flatten_eq

end Flatten

section Operations

variable {op : Operation} {inner ops : List Operation}

theorem flatten_id_cons (hop : op.Flat) (h : Balanced ops) :
    flatten id (op :: ops) = op :: flatten id ops :=
  (Flattens.cons hop (h.flattens (List.map_id ops))).flatten_eq

theorem flatten_id_nested (hi : Balanced inner) (v : Verdict) (h : Balanced ops) :
    flatten id (.push :: (inner ++ .pop v :: ops)) =
      (if v = .commit then flatten id inner else []) ++ flatten id ops :=
  (Flattens.nested rfl (hi.flattens (List.map_id inner)) rfl
    (h.flattens (List.map_id ops))).flatten_eq

/-- A reversal takes away what was committed inside it. -/
example : flatten id [.push, .delete 1, .push, .delete 2, .push, .delete 3, .pop .commit,
    .pop .revert, .delete 4, .pop .commit] = [.delete 1, .delete 4] := by rfl

/-- What is kept of balanced operations is flat. -/
theorem Balanced.flat_of_mem_flatten (h : Balanced ops) : ∀ op ∈ flatten id ops, op.Flat := by
  induction h with
  | nil => exact fun op hop => absurd hop List.not_mem_nil
  | flat hop h ih =>
    rw [flatten_id_cons hop h, List.forall_mem_cons]
    exact ⟨hop, ih⟩
  | nested v hi h ihi ih =>
    rw [flatten_id_nested hi v h, List.forall_mem_append]
    refine ⟨?_, ih⟩
    cases v with
    | commit => exact ihi
    | revert => exact fun op hop => absurd hop List.not_mem_nil

end Operations

/-! Writing to a checkpoint and then committing it is writing after the commit. -/

section Commit

variable {β : Type}

theorem pop_commit_edit {f : Changes → Changes}
    (hf : ∀ c d : Changes, c.andThen (f d) = f (c.andThen d)) (l : Ledger β) :
    { l.pop .commit with top := f (l.pop .commit).top } =
      ({ l with top := f l.top } : Ledger β).pop .commit := by
  obtain ⟨base, top, below⟩ := l
  cases below with
  | nil => rfl
  | cons parent rest =>
    exact congrArg (fun c => (⟨base, c, rest⟩ : Ledger β)) (hf parent top).symm

theorem attempt_pop_commit (l : Ledger β) (r : Except Exception (Ledger β)) :
    (l.pop .commit).attempt (r.map (·.pop .commit)) =
      ((l.attempt r).1, (l.attempt r).2.pop .commit) := by
  cases r <;> rfl

theorem setBalance_pop_commit (l : Ledger β) (a : Address) (v : Quantity) :
    (l.pop .commit).setBalance a v = (l.setBalance a v).pop .commit :=
  pop_commit_edit (fun c d => c.andThen_setBalance d a v) l

theorem setNonce_pop_commit (l : Ledger β) (a : Address) (n : Quantity) :
    (l.pop .commit).setNonce a n = (l.setNonce a n).pop .commit :=
  pop_commit_edit (fun c d => c.andThen_setNonce d a n) l

variable [Store β] (l : Ledger β)

theorem bumpNonce_pop_commit (a : Address) :
    (l.pop .commit).bumpNonce a = (l.bumpNonce a).pop .commit := by
  unfold bumpNonce
  rw [nonce_pop_commit, setNonce_pop_commit]

theorem credit_pop_commit (a : Address) (v : Quantity) :
    (l.pop .commit).credit a v = (l.credit a v).pop .commit := by
  unfold credit
  rw [balance_pop_commit, setBalance_pop_commit]

theorem debit_pop_commit (a : Address) (v : Quantity) :
    (l.pop .commit).debit a v = (l.debit a v).map (·.pop .commit) := by
  unfold debit
  rw [balance_pop_commit, setBalance_pop_commit]
  split <;> rfl

theorem transfer_pop_commit (a target : Address) (v : Quantity) :
    (l.pop .commit).transfer a target v = (l.transfer a target v).map (·.pop .commit) := by
  unfold transfer
  rw [debit_pop_commit]
  cases l.debit a v with
  | error e => rfl
  | ok paid => exact congrArg Except.ok (credit_pop_commit paid target v)

theorem perform_pop_commit {op : Operation} (h : op.Flat) :
    (l.pop .commit).perform op = ((l.perform op).1, (l.perform op).2.pop .commit) := by
  cases op with
  | push => exact h.elim
  | pop v => exact h.elim
  | balance a => exact congrArg (fun v => (Answer.quantity v, _)) (l.balance_pop_commit a)
  | nonce a => exact congrArg (fun n => (Answer.quantity n, _)) (l.nonce_pop_commit a)
  | code a => exact congrArg (fun c => (Answer.bytes c, _)) (l.code_pop_commit a)
  | present a => exact congrArg (fun b => (Answer.flag b, _)) (l.present_pop_commit a)
  | storage a i => exact congrArg (fun v => (Answer.word v, _)) (l.storage_pop_commit a i)
  | credit a v => exact congrArg (Answer.done, ·) (l.credit_pop_commit a v)
  | debit a v =>
    have hd := l.attempt_pop_commit (l.debit a v)
    rwa [← debit_pop_commit] at hd
  | transfer a target v =>
    have ht := l.attempt_pop_commit (l.transfer a target v)
    rwa [← transfer_pop_commit] at ht
  | bumpNonce a => exact congrArg (Answer.done, ·) (l.bumpNonce_pop_commit a)
  | setNonce a n => exact congrArg (Answer.done, ·) (l.setNonce_pop_commit a n)
  | setCode a code =>
    exact congrArg (Answer.done, ·) (pop_commit_edit (fun c d => c.andThen_setCode d a code) l)
  | setStorage a i v =>
    exact congrArg (Answer.done, ·) (pop_commit_edit (fun c d => c.andThen_setStorage d a i v) l)
  | wipeStorage a =>
    exact congrArg (Answer.done, ·) (pop_commit_edit (fun c d => c.andThen_wipeStorage d a) l)
  | delete a =>
    exact congrArg (Answer.done, ·) (pop_commit_edit (fun c d => c.andThen_delete d a) l)

/-- The same of one operation after the other. -/
theorem replay_pop_commit {ops : List Operation} (h : ∀ op ∈ ops, op.Flat) :
    (l.pop .commit).replay ops = (l.replay ops).pop .commit ∧
      (l.pop .commit).answers ops = l.answers ops := by
  induction ops generalizing l with
  | nil => exact ⟨rfl, rfl⟩
  | cons op ops ih =>
    rw [List.forall_mem_cons] at h
    obtain ⟨hreplay, hanswers⟩ := ih (l.perform op).2 h.2
    rw [replay_cons, answers_cons, l.perform_pop_commit h.1]
    exact ⟨hreplay, congrArg ((l.perform op).1 :: ·) hanswers⟩

end Commit

section Transcript

variable {β : Type} [Store β] (l : Ledger β) (op : Operation) (ops ops' : List Operation)

/-- Each operation with its answer. -/
def transcript : List (Operation × Answer) := ops.zip (l.answers ops)

theorem length_answers : (l.answers ops).length = ops.length := by
  induction ops generalizing l with
  | nil => rfl
  | cons op ops ih => exact congrArg (· + 1) (ih (l.perform op).2)

@[simp] theorem map_fst_transcript : (l.transcript ops).map Prod.fst = ops :=
  List.map_fst_zip (Nat.le_of_eq (l.length_answers ops).symm)

theorem transcript_cons :
    l.transcript (op :: ops) = (op, (l.perform op).1) :: (l.perform op).2.transcript ops := rfl

theorem transcript_append :
    l.transcript (ops ++ ops') = l.transcript ops ++ (l.replay ops).transcript ops' := by
  unfold transcript
  rw [answers_append]
  exact List.zip_append (l.length_answers ops).symm

end Transcript

variable {β : Type} [Store β] {inner ops : List Operation}

/-- A checkpoint leaves what it keeps, as if that had been done without it. -/
theorem Balanced.closed_flatten (h : Balanced inner) (v : Verdict) {l : Ledger β}
    (hreplay : l.push.replay inner = l.push.replay (flatten id inner)) :
    (l.push.replay inner).pop v = l.replay (if v = .commit then flatten id inner else []) ∧
      l.transcript (if v = .commit then flatten id inner else []) =
        if v = .commit then l.push.transcript (flatten id inner) else [] := by
  cases v with
  | revert => exact ⟨(h.sameBelow l.push).pop_revert_of_push, rfl⟩
  | commit =>
    have hback : l.push.pop .commit = l :=
      congrArg (fun c => (⟨l.base, c, l.below⟩ : Ledger β)) l.top.andThen_empty
    obtain ⟨hmoved, hsame⟩ := l.push.replay_pop_commit h.flat_of_mem_flatten
    rw [hback] at hmoved hsame
    rw [if_pos rfl, if_pos rfl, hreplay]
    exact ⟨hmoved.symm, congrArg ((flatten id inner).zip ·) hsame⟩

theorem Balanced.flatten_transcript (hi : Balanced inner) (h : Balanced ops) (v : Verdict)
    (l : Ledger β) :
    flatten Prod.fst (l.transcript (.push :: (inner ++ .pop v :: ops))) =
      (if v = .commit then flatten Prod.fst (l.push.transcript inner) else []) ++
        flatten Prod.fst (((l.push.replay inner).pop v).transcript ops) := by
  have hpush : (l.perform .push).2 = l.push := rfl
  have hpop : ((l.push.replay inner).perform (.pop v)).2 = (l.push.replay inner).pop v := rfl
  rw [transcript_cons, hpush, transcript_append, transcript_cons, hpop]
  refine flatten_nested rfl ?_ rfl ?_
  · rwa [map_fst_transcript]
  · rwa [map_fst_transcript]

/-- The flat sequence leaves the same ledger, and what it answers is what the nested
one answers to the operations that are kept. By induction on how they are nested. -/
theorem Balanced.replay_flatten (h : Balanced ops) (l : Ledger β) :
    l.replay ops = l.replay (flatten id ops) ∧
      flatten Prod.fst (l.transcript ops) = l.transcript (flatten id ops) := by
  induction h generalizing l with
  | nil => exact ⟨rfl, rfl⟩
  | @flat op ops hop h ih =>
    obtain ⟨hreplay, htranscript⟩ := ih (l.perform op).2
    rw [flatten_id_cons hop h, transcript_cons, transcript_cons,
      flatten_cons hop (by rwa [map_fst_transcript])]
    exact ⟨hreplay, congrArg ((op, (l.perform op).1) :: ·) htranscript⟩
  | @nested inner ops v hi h ihi ih =>
    obtain ⟨hreplay, htranscript⟩ := ihi l.push
    obtain ⟨hclosed, hkept⟩ := hi.closed_flatten v hreplay
    obtain ⟨hrest, htail⟩ := ih ((l.push.replay inner).pop v)
    have hnested : l.replay (.push :: (inner ++ .pop v :: ops)) =
        ((l.push.replay inner).pop v).replay ops := l.push.replay_append inner _
    rw [flatten_id_nested hi v h, hnested, replay_append, ← hclosed, hi.flatten_transcript h,
      transcript_append, ← hclosed, hkept, htranscript, htail]
    exact ⟨hrest, rfl⟩

/-- Over any store, a properly nested sequence and its flat one make the same changes,
and the operations that are kept answer the same in both. -/
theorem checkpoints_leave_no_mark (base : β) (h : Balanced ops) :
    ((ofBase base).replay ops).root = ((ofBase base).replay (flatten id ops)).root ∧
      flatten Prod.fst ((ofBase base).transcript ops) =
        (ofBase base).transcript (flatten id ops) ∧
      (∀ op ∈ flatten id ops, op.Flat) ∧
      ((ofBase base).replay ops).openCount = 0 := by
  obtain ⟨hreplay, htranscript⟩ := h.replay_flatten (ofBase base)
  refine ⟨congrArg root hreplay, htranscript, h.flat_of_mem_flatten, ?_⟩
  exact congrArg List.length (h.sameBelow (ofBase base)).below

/-- An account written to, deleted in a checkpoint and written to again. -/
theorem deletion_leaves_no_mark :
    let ops : List Operation := [.setStorage 7 0 1, .push, .delete 7, .push, .setStorage 7 0 5,
      .pop .revert, .setStorage 7 1 2, .pop .commit, .storage 7 0]
    let kept : List Operation :=
      [.setStorage 7 0 1, .delete 7, .setStorage 7 1 2, .storage 7 0]
    Balanced ops ∧
      ((ofBase (∅ : State)).replay ops).root = ((ofBase (∅ : State)).replay kept).root ∧
      flatten Prod.fst ((ofBase (∅ : State)).transcript ops) =
        kept.zip [.done, .done, .done, .word 0] := by
  intro ops kept
  have hreverted : Balanced [.setStorage 7 0 5] := .singleton trivial
  have hcommitted : Balanced [.delete 7, .push, .setStorage 7 0 5, .pop .revert,
      .setStorage 7 1 2] := .flat trivial (.nested .revert hreverted (.singleton trivial))
  have h : Balanced ops := .flat trivial (.nested .commit hcommitted (.singleton trivial))
  obtain ⟨hroot, hanswers, -⟩ := checkpoints_leave_no_mark (∅ : State) h
  have hkept : flatten id ops = kept := by rfl
  rw [hkept] at hroot hanswers
  have hread : ((((ofBase (∅ : State)).setStorage 7 0 1).delete 7).setStorage 7 1 2).storage 7 0 =
      0 := by
    rw [storage_setStorage, storage_delete]
    rfl
  have hfour : (ofBase (∅ : State)).answers kept = [.done, .done, .done, .word 0] :=
    congrArg (fun v => [Answer.done, .done, .done, .word v]) hread
  exact ⟨h, hroot, hanswers.trans (congrArg kept.zip hfour)⟩

end Transact.Ledger
