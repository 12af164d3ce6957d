import Transact.Proofs.Anchors
import Transact.Proofs.Watching

/-!
Batching is transparent. A settled ledger is alike, so jobs on one ledger report the same
as if the ledger were settled after each of them. Main statement:
`Ledger.batching_is_transparent`.
-/

namespace Transact

namespace Ledger

/-- A new ledger over the accounts as `l` leaves them. No account goes for being empty. -/
def settled (l : Ledger State) : Ledger State := .ofBase (l.base.settle l.root false)

/-- Without open checkpoints, settling changes no answer. -/
theorem alike_settled {l : Ledger State} (h : l.Settleable) : l.Alike l.settled := by
  obtain ⟨base, top, below⟩ := l
  obtain ⟨rfl : below = [], hanchored : top.Anchored⟩ := h
  have hwhole : (⟨base, top, []⟩ : Ledger State).whole = (ofBase (base.write top)).whole := by
    rw [whole_ofBase]
    ext a : 2
    · exact (base.balance_write top a).symm
    · exact (base.nonce_write top a).symm
    · exact (base.code_write top a).symm
    · funext i
      exact (base.storage_write top a i).symm
    · exact (base.present_write hanchored a).symm
  exact congrArg (fun s => (⟨s, []⟩ : WholeStates)) hwhole

end Ledger

theorem Job.settleable_perform {β : Type} [Store β] {j : Job} (hj : j.Sound) {l l' : Ledger β}
    {report : Report} (h : j.perform l = .ok (report, l')) (hl : l.Settleable) :
    l'.Settleable :=
  (Execution.completed (x := j.execution) rfl hj.confined (perform_eq_ok.mp h)).settleable
    hj.confined hl

namespace Ledger

/-- By induction on the jobs: the two ledgers stay alike, and both can be settled. -/
theorem process_settled {jobs : List Job} (hjobs : ∀ j ∈ jobs, j.Sound) {l l' k : Ledger State}
    (h : l.Alike l') (hl : l.Settleable) (hl' : l'.Settleable) {reports : List Report}
    (hk : l.process jobs = .ok (reports, k)) :
    ∃ k', l'.processWith settled jobs = .ok (reports, k') ∧ k.Alike k' := by
  induction jobs generalizing l l' reports with
  | nil =>
    cases hk
    exact ⟨l', rfl, h⟩
  | cons j jobs ih =>
    rw [List.forall_mem_cons] at hjobs
    obtain ⟨report, l₁, rest, hj, hrest, rfl⟩ := processWith_cons_eq_ok.mp hk
    obtain ⟨l₁', hj', h₁⟩ := j.perform_of_alike h hj
    have hl₁' := j.settleable_perform hjobs.1 hj' hl'
    obtain ⟨k', hrest', hk'⟩ := ih hjobs.2 (h₁.trans (alike_settled hl₁'))
      (j.settleable_perform hjobs.1 hj hl) (.ofBase _) hrest
    exact ⟨k', processWith_cons_eq_ok.mpr ⟨report, l₁', rest, hj', hrest', rfl⟩, hk'⟩

/-- Sound jobs report the same whether they go on one ledger or the ledger is settled after
each, and the ledgers they end on answer the same. So do the jobs with their code watched,
whose diaries hold every answer the code gets and whose reports are otherwise those of the
jobs themselves. -/
theorem batching_is_transparent (s : State) (jobs : List Job) (h : ∀ j ∈ jobs, j.Sound) :
    ∃ reports l l' seen k k',
      (ofBase s).process jobs = .ok (reports, l) ∧
      (ofBase s).processWith settled jobs = .ok (reports, l') ∧
      (∀ a, l.balance a = l'.balance a ∧ l.nonce a = l'.nonce a ∧ l.code a = l'.code a ∧
        (∀ i, l.storage a i = l'.storage a i) ∧ l.present a = l'.present a) ∧
      (ofBase s).process (jobs.map .watched) = .ok (seen, k) ∧
      (ofBase s).processWith settled (jobs.map .watched) = .ok (seen, k') ∧
      List.Forall₂ Report.Unnoted seen reports := by
  have hwatched : ∀ j ∈ jobs.map Job.watched, j.Sound := by
    intro j hj
    obtain ⟨j, hmem, rfl⟩ := List.mem_map.mp hj
    exact (h j hmem).watched
  have hbase : (ofBase s).Alike (ofBase s) := rfl
  obtain ⟨seen, k, hk⟩ := processWith_sound hwatched id (ofBase s)
  obtain ⟨k', hk', -⟩ := process_settled hwatched hbase (.ofBase s) (.ofBase s) hk
  obtain ⟨reports, l, hl, hunnoted, -⟩ := process_watched jobs hbase hk
  obtain ⟨l', hl', halike⟩ := process_settled h hbase (.ofBase s) (.ofBase s) hl
  refine ⟨reports, l, l', seen, k, k', hl, hl', ?_, hk, hk', hunnoted⟩
  intro a
  exact ⟨halike.balance_eq a, halike.nonce_eq a, halike.code_eq a, halike.storage_eq a,
    halike.present_eq a⟩

end Ledger

/-- Code that asks whether account 8 is there and sends it five. -/
def Interpreter.asking : Interpreter := fun v =>
  .read (.present 8) fun known =>
    .call ⟨7, 8, 8, 5, 0, []⟩ fun _ => .halt ⟨v.gas, [if known then 1 else 0], none⟩

/-- The `n`-th transaction of account 7 to itself, as a job. -/
def Job.asking (n : Quantity) : Job :=
  let t : Transaction := { Transaction.toSelf with nonce := n, gasLimit := 25000 }
  { Job.toSelf .asking with task := .transaction t }

/-- The first of two transactions makes an account, and the second finds it there. -/
theorem payee_is_found_by_next :
    (∀ j ∈ [Job.asking 0, .asking 1], j.Sound) ∧
    ∃ reports l l',
      World.plain.ledger.process [.asking 0, .asking 1] = .ok (reports, l) ∧
      World.plain.ledger.processWith Ledger.settled [.asking 0, .asking 1] =
        .ok (reports, l') ∧
      reports.map (·.execution.outcome.output) = [[0], [1]] ∧
      l.present 8 = l'.present 8 := by
  have hsound : ∀ j ∈ [Job.asking 0, .asking 1], j.Sound := by
    intro j hj
    have hm : j.machine = .plain .asking := by
      rcases List.mem_pair.mp hj with rfl | rfl <;> rfl
    exact ⟨hm ▸ fun _ _ _ => trivial, hm ▸ by decide⟩
  obtain ⟨reports, l, l', -, -, -, hl, hl', hreads, -⟩ :=
    Ledger.batching_is_transparent World.plain.ledger.base _ hsound
  have hfound : (World.plain.ledger.process [.asking 0, .asking 1]).map (fun done =>
      done.1.map (·.execution.outcome.output)) = .ok [[0], [1]] := by decide +kernel
  refine ⟨hsound, reports, l, l', hl, hl', ?_, (hreads 8).2.2.2.2⟩
  have hplain : World.plain.ledger.process [.asking 0, .asking 1] = .ok (reports, l) := hl
  rw [hplain] at hfound
  exact Except.ok.inj hfound

end Transact
