import Transact.Proofs.Jobs
import Transact.Proofs.Likeness
import Transact.Proofs.Nesting

/-!
Jobs on ledgers that are alike, by machines whose programs run alike. Their diaries may
differ in entries that do not count. Main statement: `Job.alike_perform`.
-/

namespace Transact

namespace Diary

/-- The diaries grew by the same, as far as it is to be kept. -/
def Grown (keep : Entry → Bool) (d₀ d₀' d d' : Diary) : Prop :=
  ∃ es es', d.toList = d₀.toList ++ es ∧ d'.toList = d₀'.toList ++ es' ∧
    es.filter keep = es'.filter keep

theorem toList_push {d d₀ : Diary} {es : List Entry} (h : d.toList = d₀.toList ++ es) (e : Entry) :
    (d.push e).toList = d₀.toList ++ (es ++ [e]) := by
  rw [Array.toList_push, h, List.append_assoc]

theorem steps_eq_filter {keep : Entry → Bool} (hkeep : ∀ s, keep (.step s) = true) (d : Diary) :
    d.steps = Diary.steps (d.toList.filter keep).toArray := by
  unfold steps
  rw [List.filterMap_filter]
  congr 1
  funext e
  split
  · next s => rw [if_pos (hkeep s)]
  · exact (ite_self none).symm

namespace Grown

variable {keep : Entry → Bool} {d₀ d₀' d₁ d₁' d d' : Diary}

theorem refl (d d' : Diary) : Grown keep d d' d d' :=
  ⟨[], [], (List.append_nil _).symm, (List.append_nil _).symm, rfl⟩

theorem trans (h : Grown keep d₀ d₀' d₁ d₁') (h' : Grown keep d₁ d₁' d d') :
    Grown keep d₀ d₀' d d' := by
  obtain ⟨es, es', he, he', hes⟩ := h
  obtain ⟨fs, fs', hf, hf', hfs⟩ := h'
  refine ⟨es ++ fs, es' ++ fs', ?_, ?_, ?_⟩
  · rw [hf, he, List.append_assoc]
  · rw [hf', he', List.append_assoc]
  · rw [List.filter_append, List.filter_append, hes, hfs]

theorem appending (d₀ d₀' : Diary) : Appending (Grown keep d₀ d₀') := by
  rintro d d' ⟨es, es', he, he', hes⟩ e
  refine ⟨es ++ [e], es' ++ [e], toList_push he e, toList_push he' e, ?_⟩
  rw [List.filter_append, List.filter_append, hes]

/-- An entry that does not count. -/
theorem push_left (h : Grown keep d₀ d₀' d d') {e : Entry} (he : keep e = false) :
    Grown keep d₀ d₀' (d.push e) d' := by
  obtain ⟨es, es', hd, hd', hes⟩ := h
  refine ⟨es ++ [e], es', toList_push hd e, hd', ?_⟩
  rw [List.filter_append, List.filter_cons_of_neg (Bool.eq_false_iff.mp he), List.filter_nil,
    List.append_nil, hes]

theorem filter_eq (h : Grown keep #[] #[] d d') : d.toList.filter keep = d'.toList.filter keep := by
  obtain ⟨es, es', he, he', hes⟩ := h
  rw [he, he']
  exact hes

/-- The steps count. -/
theorem steps_since (hkeep : ∀ s, keep (.step s) = true) (h : Grown keep d₀ d₀' d d') :
    (d.since d₀.size).steps = (d'.since d₀'.size).steps := by
  obtain ⟨es, es', he, he', hes⟩ := h
  rw [steps_eq_filter hkeep, steps_eq_filter hkeep (d'.since _), toList_since he,
    toList_since he', hes]

end Grown

end Diary

variable {β γ : Type} [Store β] [Store γ]

theorem Ledger.Alike.deleteAll {l : Ledger β} {l' : Ledger γ} (h : l.Alike l')
    (condemned : Std.ExtTreeSet Address) :
    (condemned.foldl .delete l).Alike (condemned.foldl .delete l') := by
  rw [Std.ExtTreeSet.foldl_eq_foldl_toList, Std.ExtTreeSet.foldl_eq_foldl_toList]
  induction condemned.toList generalizing l l' with
  | nil => exact h
  | cons a as ih => exact ih (h.perform (.delete a)).2

theorem Machine.validate_eq (m : Machine) {l : Ledger β} {l' : Ledger γ} (h : l.Alike l')
    (i : Interpreter) (t : Transaction) : m.validate l t = (m.under i).validate l' t := by
  unfold validate
  simp only [h.nonce_eq, h.balance_eq]
  rfl

/-- The programs of both run alike, whatever the diaries hold. -/
def Interpreter.Like (keep : Entry → Bool) (β γ : Type) [Store β] [Store γ] (i i' : Interpreter) :
    Prop :=
  ∀ d₀ d₀' v, (i v).Alike (Diary.Grown keep d₀ d₀') β γ (i' v)

namespace Execution

/-- The execution with another interpreter. -/
def under (x : Execution) (i : Interpreter) : Execution := { x with machine := x.machine.under i }

/-- The same came out of both but for the interpreter, and the worlds are alike. -/
structure Parallel (D : Diary → Diary → Prop) (m : Machine) (i : Interpreter) {α : Type}
    (r : α × Execution × World β) (r' : α × Execution × World γ) : Prop where
  reply : r.1 = r'.1
  machine : r.2.1.machine = m
  execution : r.2.1.under i = r'.2.1
  world : r.2.2.Alike D r'.2.2

section Steps

variable {D : Diary → Diary → Prop} (x : Execution) (i : Interpreter) {w : World β} {w' : World γ}
  (hD : Diary.Appending D) (h : w.Alike D w')
include hD h

theorem alike_accept (t : Transaction) :
    Parallel D x.machine i (x.accept t w) ((x.under i).accept t w') := by
  unfold accept under
  dsimp only
  split
  · rw [← x.machine.validate_eq h.ledger i t]
    split
    · next a _ => exact ⟨rfl, rfl, rfl, h.on_ledger (h.ledger.perform (.bumpNonce a.sender)).2⟩
    · exact ⟨rfl, rfl, rfl, h.remarks hD _⟩
  · exact ⟨rfl, rfl, rfl, h⟩

theorem alike_start (a : Option Accepted) (terms : Terms) (message : Message) :
    Parallel D x.machine i (x.start a terms message w) ((x.under i).start a terms message w') := by
  have hb : Agree D (x.machine.begin x.depth terms message w)
      ((x.machine.under i).begin x.depth terms message w') :=
    x.machine.alike_begin hD h x.depth terms message
  unfold start under
  dsimp only
  rcases h₁ : x.machine.begin x.depth terms message w with ⟨admission, w₁⟩
  rcases h₂ : (x.machine.under i).begin x.depth terms message w' with ⟨admission', w₂⟩
  rw [h₁, h₂] at hb
  obtain ⟨rfl : admission = admission', hw⟩ := hb
  cases admission with
  | done o => exact ⟨rfl, rfl, rfl, hw⟩
  | pending p => exact ⟨rfl, rfl, rfl, hw⟩

theorem alike_execute : Parallel D x.machine i (x.execute w) ((x.under i).execute w') := by
  unfold execute under
  dsimp only
  split
  · next a _ =>
    have hd := h.ledger.debit a.sender (a.price a.transaction.gasLimit)
    generalize w.ledger.debit a.sender _ = r at hd ⊢
    generalize w'.ledger.debit a.sender _ = r' at hd ⊢
    cases hd with
    | error e => exact ⟨rfl, rfl, rfl, h⟩
    | ok hl =>
      obtain ⟨hreply, hmachine, hexecution, hworld⟩ := x.alike_start i hD
        ((h.on_ledger hl).event hD a.event) (some a) a.terms a.message
      exact ⟨congrArg Except.ok hreply, hmachine, hexecution, hworld⟩
  · exact ⟨rfl, rfl, rfl, h⟩

theorem alike_dispatch (terms : Terms) (message : Message) :
    Parallel D x.machine i (x.dispatch terms message w)
      ((x.under i).dispatch terms message w') := by
  unfold dispatch under
  dsimp only
  split
  · obtain ⟨hreply, hmachine, hexecution, hworld⟩ := x.alike_start i hD h none terms message
    exact ⟨congrArg Except.ok hreply, hmachine, hexecution, hworld⟩
  · exact ⟨rfl, rfl, rfl, h⟩

theorem alike_takeUp (task : Task) :
    Parallel D x.machine i (x.takeUp task w) ((x.under i).takeUp task w') := by
  cases task with
  | message terms message => exact x.alike_dispatch i hD h terms message
  | transaction t =>
    obtain ⟨hreply, hmachine, hx, hw⟩ := x.alike_accept i hD h t
    rw [takeUp, takeUp]
    rcases h₁ : x.accept t w with ⟨r, x₁, w₁⟩
    rcases h₂ : (x.under i).accept t w' with ⟨r', x₂, w₂⟩
    rw [h₁, h₂] at hreply hx hw
    rw [h₁] at hmachine
    obtain ⟨rfl : r = r'⟩ := hreply
    obtain ⟨rfl : x₁.under i = x₂⟩ := hx
    cases r with
    | error e => exact ⟨rfl, hmachine, rfl, hw⟩
    | ok _ => exact hmachine ▸ x₁.alike_execute i hD hw

theorem alike_conclude (a : Accepted) (o : Outcome) (refunded : Quantity) :
    Parallel D x.machine i ((.ok () : Except Error Unit), x.conclude a o refunded w)
      (.ok (), (x.under i).conclude a o refunded w') := by
  have hpaid := ((h.ledger.perform (.credit a.sender (a.price o.gas))).2.perform
    (.credit x.machine.block.author (a.price (a.gasUsed o.gas)))).2
  unfold conclude
  cases o.exception with
  | some e => exact ⟨rfl, rfl, rfl, (h.on_ledger hpaid).remark hD _⟩
  | none =>
    exact ⟨rfl, rfl, rfl, (h.on_ledger (hpaid.deleteAll o.substate.condemned)).remark hD _⟩

theorem alike_finalize {r : Except Error Unit × Execution × World β}
    (hf : x.finalize w = .ok r) :
    ∃ r', (x.under i).finalize w' = .ok r' ∧ Parallel D x.machine i r r' := by
  unfold finalize at hf
  split at hf
  · next a o hx =>
    obtain ⟨⟨o', refunded⟩, hr, hf⟩ := bind_eq_ok.mp hf
    cases hf
    exact ⟨_, finalize_of_refund (x := x.under i) hx hr w', x.alike_conclude i hD h a o' refunded⟩
  · next hx =>
    cases hf
    refine ⟨(.error (.invalidStage .finalize x.stage), x.under i, w'), ?_, rfl, rfl, rfl, h⟩
    unfold finalize
    split
    · next a o hx' => exact (hx a o hx').elim
    · rfl

end Steps

/-! From here on it matters how the diaries grow. -/

section Run

variable {keep : Entry → Bool} (hkeep : ∀ s, keep (.step s) = true) (x : Execution)
  {i : Interpreter} (hi : x.machine.interpreter.Like keep β γ i) {d₀ d₀' : Diary} {w : World β}
  {w' : World γ} (h : w.Alike (Diary.Grown keep d₀ d₀') w')
include hkeep hi h

theorem alike_run (observer : Observer) :
    Parallel (Diary.Grown keep d₀ d₀') x.machine i (x.run observer w)
      ((x.under i).run observer w') := by
  unfold run under
  dsimp only
  split
  · next a p _ =>
    -- the runs are compared by what they add to the diaries
    have hw : w.Alike (Diary.Grown keep w.diary w'.diary) w' := ⟨h.ledger, .refl _ _⟩
    have hr := x.machine.alike_run (Diary.Grown.appending _ _) hw (hi _ _) observer x.depth p
    rcases h₁ : x.machine.run observer x.depth p w with ⟨ending, w₁⟩
    rcases h₂ : (x.machine.under i).run observer x.depth p w' with ⟨ending', w₂⟩
    rw [h₁, h₂] at hr
    obtain ⟨rfl : ending = ending', hrun⟩ := hr
    have hdone : w₁.Alike (Diary.Grown keep d₀ d₀') w₂ :=
      ⟨hrun.ledger, h.diary.trans hrun.diary⟩
    dsimp only
    rw [hrun.diary.steps_since hkeep]
    cases ending with
    | closed o => exact ⟨rfl, rfl, rfl, hdone⟩
    | uneven o => exact ⟨rfl, rfl, rfl, hdone⟩
  · exact ⟨rfl, rfl, rfl, h⟩

theorem alike_carryOut (task : Task) (observer : Observer) :
    Parallel (Diary.Grown keep d₀ d₀') x.machine i (x.carryOut task observer w)
      ((x.under i).carryOut task observer w') := by
  obtain ⟨hreply, hmachine, hx, hw⟩ := x.alike_takeUp i (Diary.Grown.appending _ _) h task
  unfold carryOut
  rcases h₁ : x.takeUp task w with ⟨r, x₁, w₁⟩
  rcases h₂ : (x.under i).takeUp task w' with ⟨r', x₂, w₂⟩
  rw [h₁, h₂] at hreply hx hw
  rw [h₁] at hmachine
  obtain ⟨rfl : r = r'⟩ := hreply
  obtain ⟨rfl : x₁.under i = x₂⟩ := hx
  cases r with
  | error e => exact ⟨rfl, hmachine, rfl, hw⟩
  | ok done =>
    cases done with
    | true => exact ⟨rfl, hmachine, rfl, hw⟩
    | false =>
      rw [← hmachine] at hi ⊢
      exact x₁.alike_run hkeep hi hw observer

theorem alike_complete (task : Task) (observer : Observer)
    {r : Except Error Unit × Execution × World β} (hc : x.complete task observer w = .ok r) :
    ∃ r', (x.under i).complete task observer w' = .ok r' ∧
      Parallel (Diary.Grown keep d₀ d₀') x.machine i r r' := by
  have hcarry := x.alike_carryOut hkeep hi h task observer
  cases task with
  | message terms message =>
    cases hc
    exact ⟨_, rfl, hcarry⟩
  | transaction t =>
    obtain ⟨hreply, hmachine, hx, hw⟩ := hcarry
    rcases h₁ : x.carryOut (.transaction t) observer w with ⟨r₁, x₁, w₁⟩
    rcases h₂ : (x.under i).carryOut (.transaction t) observer w' with ⟨r₂, x₂, w₂⟩
    rw [h₁, h₂] at hreply hx hw
    rw [h₁] at hmachine
    obtain ⟨rfl : r₁ = r₂⟩ := hreply
    obtain ⟨rfl : x₁.under i = x₂⟩ := hx
    rw [complete, transact_eq, h₁] at hc
    rw [complete, transact_eq, h₂]
    cases r₁ with
    | error e =>
      cases hc
      exact ⟨_, rfl, rfl, hmachine, rfl, hw⟩
    | ok _ => exact hmachine ▸ x₁.alike_finalize i (Diary.Grown.appending _ _) hw hc

end Run

end Execution

/-! Jobs. -/

theorem Interpreter.Like.refl (keep : Entry → Bool) (i : Interpreter) : i.Like keep β γ i :=
  fun d₀ d₀' v => .refl (Diary.Grown.appending d₀ d₀') (i v)

/-- The same is reported but for the interpreter and what does not count. -/
structure Report.Like (keep : Entry → Bool) (m : Machine) (i : Interpreter) (r r' : Report) :
    Prop where
  reply : r.reply = r'.reply
  machine : r.execution.machine = m
  execution : r.execution.under i = r'.execution
  diary : r.diary.toList.filter keep = r'.diary.toList.filter keep

theorem Report.Like.eq {m : Machine} {r r' : Report}
    (h : r.Like (fun _ => true) m m.interpreter r') : r = r' := by
  obtain ⟨reply, x, diary⟩ := r
  obtain ⟨reply', x', diary'⟩ := r'
  obtain ⟨rfl, rfl, rfl, hdiary⟩ := h
  have hall : ∀ d : Diary, d.toList.filter (fun _ => true) = d.toList :=
    fun d => List.filter_eq_self.mpr fun _ _ => rfl
  rw [hall, hall] at hdiary
  cases Array.ext' hdiary
  rfl

namespace Job

/-- The job with another interpreter. -/
def under (j : Job) (i : Interpreter) : Job := { j with machine := j.machine.under i }

/-- On ledgers that are alike, jobs whose programs run alike report the same and leave
ledgers that are alike. -/
theorem alike_perform {keep : Entry → Bool} (hkeep : ∀ s, keep (.step s) = true) (j : Job)
    {i : Interpreter} (hi : j.machine.interpreter.Like keep β γ i) {l l₁ : Ledger β}
    {l' : Ledger γ} (h : l.Alike l') {report : Report} (hj : j.perform l = .ok (report, l₁)) :
    ∃ report' l₁', (j.under i).perform l' = .ok (report', l₁') ∧
      report.Like keep j.machine i report' ∧ l₁.Alike l₁' := by
  have hw : World.Alike (Diary.Grown keep #[] #[]) (⟨l, #[]⟩ : World β) (⟨l', #[]⟩ : World γ) :=
    ⟨h, .refl _ _⟩
  obtain ⟨⟨reply, x', w'⟩, hc, hreply, hmachine, hx, hl⟩ :=
    j.execution.alike_complete hkeep hi hw j.task j.observer (perform_eq_ok.mp hj)
  exact ⟨⟨reply, x', w'.diary⟩, w'.ledger, perform_eq_ok.mpr hc,
    ⟨hreply, hmachine, hx, hl.diary.filter_eq⟩, hl.ledger⟩

/-- One job on ledgers that are alike. -/
theorem perform_of_alike (j : Job) {l l₁ : Ledger β} {l' : Ledger γ} (h : l.Alike l')
    {report : Report} (hj : j.perform l = .ok (report, l₁)) :
    ∃ l₁', j.perform l' = .ok (report, l₁') ∧ l₁.Alike l₁' := by
  have hown := Interpreter.Like.refl (β := β) (γ := γ) (fun _ => true) j.machine.interpreter
  obtain ⟨report', l₁', hj', hlike, hl⟩ := j.alike_perform (fun _ => rfl) hown h hj
  cases hlike.eq
  exact ⟨l₁', hj', hl⟩

end Job

end Transact
