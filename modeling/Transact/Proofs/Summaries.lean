import Mathlib.Data.List.Forall2
import Transact.Proofs.Observation

/-!
What observers and requests for a summary can change: the summary and what it says of
the path, and nothing else. Main statement: `twin_performAll`.
-/

namespace Transact

/-- The same but for the path. -/
def Summary.Twin (t t' : Summary) : Prop := { t' with path := t.path } = t

namespace Execution

/-- Two executions that differ at most in what is asked and told of them. -/
structure Twin (x x' : Execution) : Prop where
  machine : x'.machine = x.machine
  depth : x'.depth = x.depth
  phase : x'.phase = x.phase
  summary : ∀ t ∈ x.summary, ∀ t' ∈ x'.summary, t.Twin t'

inductive Reply.Twin : Reply → Reply → Prop
  | same (r : Reply) : Twin r r
  | summary {t t' : Option Summary} (h : ∀ u ∈ t, ∀ u' ∈ t', u.Twin u') :
      Twin (.summary t) (.summary t')

structure Scene.Twin {β : Type} (s s' : Scene β) : Prop where
  execution : s.execution.Twin s'.execution
  parent : s'.parent = s.parent
  world : s.world.Twin s'.world

/-- Both fail alike, or both succeed with results in the relation `R`. -/
inductive Together {α : Type} (R : α → α → Prop) : Except Fault α → Except Fault α → Prop
  | fault (f : Fault) : Together R (.error f) (.error f)
  | ok {a a' : α} (h : R a a') : Together R (.ok a) (.ok a')

theorem Together.map {α γ : Type} {R : α → α → Prop} {S : γ → γ → Prop} {y y' : Except Fault α}
    {f f' : α → γ} (h : Together R y y') (hf : ∀ a a', R a a' → S (f a) (f' a')) :
    Together S (y.map f) (y'.map f') := by
  cases h with
  | fault e => exact .fault e
  | ok h => exact .ok (hf _ _ h)

theorem Together.bind {α γ : Type} {R : α → α → Prop} {S : γ → γ → Prop} {y y' : Except Fault α}
    {f f' : α → Except Fault γ} (h : Together R y y')
    (hf : ∀ a a', R a a' → Together S (f a) (f' a')) : Together S (y >>= f) (y' >>= f') := by
  cases h with
  | fault e => exact .fault e
  | ok h => exact hf _ _ h

namespace Twin

variable {x x' : Execution}

theorem refl (x : Execution) : x.Twin x := by
  refine ⟨rfl, rfl, rfl, ?_⟩
  intro t ht t' ht'
  cases Option.mem_unique ht ht'
  rfl

theorem exists_eq (h : x.Twin x') : ∃ wanted path summary,
    x' = { x with wanted, path, summary } ∧ ∀ t ∈ x.summary, ∀ t' ∈ summary, t.Twin t' := by
  obtain ⟨_, _, _, wanted, path, summary⟩ := x'
  obtain ⟨hm, hd, hp, hs⟩ := h
  cases hm
  cases hd
  cases hp
  exact ⟨wanted, path, summary, rfl, hs⟩

end Twin

/-- The same reply, and twins of what is left. -/
structure Concurs {α β : Type} (r r' : α × Execution × World β) : Prop where
  reply : r'.1 = r.1
  execution : r.2.1.Twin r'.2.1
  world : r.2.2.Twin r'.2.2

/-- Twin replies, and twin scenes after them. -/
def TwinStep {β : Type} (a a' : Reply × Scene β) : Prop := a.1.Twin a'.1 ∧ a.2.Twin a'.2

theorem Concurs.twinStep {α β : Type} {r r' : α × Execution × World β} (h : Concurs r r')
    (f : α → Reply) (parent : Substate) :
    TwinStep (f r.1, ⟨r.2.1, parent, r.2.2⟩) (f r'.1, ⟨r'.2.1, parent, r'.2.2⟩) := by
  refine ⟨?_, h.execution, rfl, h.world⟩
  rw [h.reply]
  exact .same _

section Commands

variable {β : Type} [Store β] {x x' : Execution} {w w' : World β}

theorem concurs_accept (h : x.Twin x') (hw : w.Twin w') (t : Transaction) :
    Concurs (x.accept t w) (x'.accept t w') := by
  obtain ⟨wanted, path, summary, rfl, hs⟩ := h.exists_eq
  unfold accept
  rw [hw.ledger]
  dsimp only
  split
  · split
    · next a _ => exact ⟨rfl, ⟨rfl, rfl, rfl, hs⟩, hw.edit (·.bumpNonce a.sender)⟩
    · exact ⟨rfl, ⟨rfl, rfl, rfl, hs⟩, hw.remarks _ _⟩
  · exact ⟨rfl, h, hw⟩

theorem concurs_start (h : x.Twin x') (hw : w.Twin w') (a : Option Accepted) (t : Terms)
    (k : Message) : Concurs (x.start a t k w) (x'.start a t k w') := by
  obtain ⟨wanted, path, summary, rfl, hs⟩ := h.exists_eq
  obtain ⟨ha, hw₁⟩ := x.machine.concur_begin hw x.depth t k
  unfold start
  dsimp only
  rcases hb : x.machine.begin x.depth t k w with ⟨o | p, w₁⟩
  all_goals
    rcases hb' : x.machine.begin x.depth t k w' with ⟨a', w₁'⟩
    rw [hb, hb'] at ha hw₁
    cases ha
    exact ⟨rfl, ⟨rfl, rfl, rfl, hs⟩, hw₁⟩

theorem concurs_execute (h : x.Twin x') (hw : w.Twin w') :
    Concurs (x.execute w) (x'.execute w') := by
  obtain ⟨wanted, path, summary, rfl, hs⟩ := h.exists_eq
  unfold execute
  rw [hw.ledger]
  dsimp only
  split
  · next a _ =>
    split
    · exact ⟨rfl, ⟨rfl, rfl, rfl, hs⟩, hw⟩
    · next l _ =>
      obtain ⟨hr, hx, hw₁⟩ := concurs_start h ((hw.withLedger l).write (.event a.event))
        (some a) a.terms a.message
      exact ⟨congrArg Except.ok hr, hx, hw₁⟩
  · exact ⟨rfl, h, hw⟩

theorem concurs_dispatch (h : x.Twin x') (hw : w.Twin w') (t : Terms) (k : Message) :
    Concurs (x.dispatch t k w) (x'.dispatch t k w') := by
  obtain ⟨wanted, path, summary, rfl, hs⟩ := h.exists_eq
  unfold dispatch
  dsimp only
  split
  · obtain ⟨hr, hx, hw₁⟩ := concurs_start h hw none t k
    exact ⟨congrArg Except.ok hr, hx, hw₁⟩
  · exact ⟨rfl, h, hw⟩

theorem concurs_run (h : x.Twin x') (hw : w.Twin w') (o o' : Observer) :
    Concurs (x.run o w) (x'.run o' w') := by
  obtain ⟨wanted, path, summary, rfl, hs⟩ := h.exists_eq
  unfold run
  dsimp only
  split
  · next a p _ =>
    obtain ⟨he, hw₁⟩ := x.machine.concur_run o o' hw x.depth p
    rcases hr : x.machine.run o x.depth p w with ⟨e, w₁⟩
    rcases hr' : x.machine.run o' x.depth p w' with ⟨e', w₁'⟩
    rw [hr, hr'] at he hw₁
    cases he
    cases e with
    | closed _ => exact ⟨rfl, ⟨rfl, rfl, rfl, hs⟩, hw₁⟩
    | uneven _ => exact ⟨rfl, ⟨rfl, rfl, rfl, hs⟩, hw₁⟩
  · exact ⟨rfl, h, hw⟩

/-- The summaries are made of the same outcome. -/
theorem twin_conclude (h : x.Twin x') (hw : w.Twin w') (a : Accepted) (o : Outcome)
    (refunded : Quantity) :
    (x.conclude a o refunded w).1.Twin (x'.conclude a o refunded w').1 ∧
      (x.conclude a o refunded w).2.Twin (x'.conclude a o refunded w').2 := by
  obtain ⟨wanted, path, summary, rfl, hs⟩ := h.exists_eq
  have hfees := hw.edit (payFees x.machine a o.gas)
  have hsummary : ∀ t ∈ x.wanted.map (x.summarize a o refunded),
      ∀ t' ∈ wanted.map (({ x with wanted, path, summary } : Execution).summarize a o refunded),
        t.Twin t' := by
    intro t ht t' ht'
    obtain ⟨b, -, rfl⟩ := Option.map_eq_some_iff.mp ht
    obtain ⟨b', -, rfl⟩ := Option.map_eq_some_iff.mp ht'
    rfl
  unfold conclude
  dsimp only
  split
  · exact ⟨⟨rfl, rfl, rfl, hsummary⟩, hfees.remark _ _⟩
  · exact ⟨⟨rfl, rfl, rfl, hsummary⟩, (hfees.edit _).remark _ _⟩

theorem together_finalize (h : x.Twin x') (hw : w.Twin w') :
    Together Concurs (x.finalize w) (x'.finalize w') := by
  obtain ⟨wanted, path, summary, rfl, hs⟩ := h.exists_eq
  unfold finalize
  dsimp only
  split
  · next a o _ =>
    cases refund x.machine.rules a o with
    | error f => exact .fault f
    | ok paid =>
      obtain ⟨hx, hw₁⟩ := twin_conclude h hw a paid.1 paid.2
      exact .ok ⟨rfl, hx, hw₁⟩
  · exact .ok ⟨rfl, h, hw⟩

theorem twin_handOver (h : x.Twin x') (parent : Substate) :
    (x'.handOver parent).1 = (x.handOver parent).1 ∧
      (x.handOver parent).2.1.Twin (x'.handOver parent).2.1 ∧
      (x'.handOver parent).2.2 = (x.handOver parent).2.2 := by
  obtain ⟨wanted, path, summary, rfl, hs⟩ := h.exists_eq
  unfold handOver
  dsimp only
  split
  · split
    · exact ⟨rfl, h, rfl⟩
    · exact ⟨rfl, ⟨rfl, rfl, rfl, hs⟩, rfl⟩
  · exact ⟨rfl, h, rfl⟩

/-- The same command, but for the observer of a run. -/
inductive Command.Twin : Command → Command → Prop
  | same (c : Command) : Twin c c
  | run (o o' : Observer) : Twin (.run o) (.run o')

/-- Twins stay twins by the same command, whoever observes it. -/
theorem twin_perform {s s' : Scene β} (hs : s.Twin s') {c c' : Command} (hc : c.Twin c') :
    Together TwinStep (s.perform c) (s'.perform c') := by
  obtain ⟨x, parent, w⟩ := s
  obtain ⟨x', parent', w'⟩ := s'
  obtain ⟨hx, hp, hw⟩ := hs
  cases hp
  cases hc with
  | run o o' => exact .ok ((concurs_run hx hw o o').twinStep .ofUnit parent)
  | same c =>
    cases c with
    | accept t => exact .ok ((concurs_accept hx hw t).twinStep .ofUnit parent)
    | execute => exact .ok ((concurs_execute hx hw).twinStep .ofBool parent)
    | dispatch t k => exact .ok ((concurs_dispatch hx hw t k).twinStep .ofBool parent)
    | run o => exact .ok ((concurs_run hx hw o o).twinStep .ofUnit parent)
    | finalize => exact (together_finalize hx hw).map fun _ _ h => h.twinStep .ofUnit parent
    | handOver =>
      obtain ⟨hr, hy, hparent⟩ := twin_handOver hx parent
      have hreply : Reply.Twin (.ofUnit (x.handOver parent).1)
          (.ofUnit (x'.handOver parent).1) := by
        rw [hr]
        exact .same _
      exact .ok ⟨hreply, hy, hparent, hw⟩
    | requestSummary b =>
      exact .ok ⟨.same _, ⟨hx.machine, hx.depth, hx.phase, hx.summary⟩, rfl, hw⟩
    | takeSummary =>
      have hnone : ∀ t ∈ (none : Option Summary), ∀ t' ∈ (none : Option Summary), t.Twin t' :=
        fun _ ht => nomatch ht
      exact .ok ⟨.summary hx.summary, ⟨hx.machine, hx.depth, hx.phase, hnone⟩, rfl, hw⟩

end Commands

/-! Commands in a row. -/

/-- What is reported of a reply: the one to a request for a summary tells nothing. -/
def Command.reported : Command → Reply → List Reply
  | .requestSummary _, _ => []
  | _, r => [r]

section Rows

variable {β : Type} [Store β]

/-- Performs `cs` in order; answers what is reported of the replies. -/
def Scene.performAll (s : Scene β) : List Command → Except Fault (List Reply × Scene β)
  | [] => .ok ([], s)
  | c :: cs => do
    let (r, s) ← s.perform c
    let (rs, s) ← s.performAll cs
    return (c.reported r ++ rs, s)

/-- The same commands in the same order, but for the observers of runs and for requests
for a summary, which may stand anywhere. -/
inductive Command.Alike : List Command → List Command → Prop
  | nil : Alike [] []
  | cons {c c' : Command} {cs cs' : List Command} (hc : c.Twin c') (h : Alike cs cs') :
      Alike (c :: cs) (c' :: cs')
  | left {cs cs' : List Command} (b : Bool) (h : Alike cs cs') :
      Alike (.requestSummary b :: cs) cs'
  | right {cs cs' : List Command} (b : Bool) (h : Alike cs cs') :
      Alike cs (.requestSummary b :: cs')

/-- Twin reports, and twin scenes after them. -/
def TwinRow (a a' : List Reply × Scene β) : Prop :=
  List.Forall₂ Reply.Twin a.1 a'.1 ∧ a.2.Twin a'.2

theorem Command.Twin.reported {c c' : Command} (hc : c.Twin c') {r r' : Reply}
    (hr : r.Twin r') : List.Forall₂ Reply.Twin (c.reported r) (c'.reported r') := by
  have hone : List.Forall₂ Reply.Twin [r] [r'] := .cons hr .nil
  cases hc with
  | run o o' => exact hone
  | same c =>
    cases c with
    | requestSummary b => exact .nil
    | _ => exact hone

theorem performAll_request (s : Scene β) (b : Bool) (cs : List Command) :
    s.performAll (.requestSummary b :: cs) =
      ({ s with execution := s.execution.requestSummary b } : Scene β).performAll cs := by
  rw [Scene.performAll]
  dsimp only [Scene.perform, bind, Except.bind]
  rcases ({ s with execution := s.execution.requestSummary b } : Scene β).performAll cs with
    f | ⟨rs, s'⟩ <;> rfl

theorem twin_performAll {s s' : Scene β} (hs : s.Twin s') {cs cs' : List Command}
    (h : Command.Alike cs cs') : Together TwinRow (s.performAll cs) (s'.performAll cs') := by
  induction h generalizing s s' with
  | nil => exact .ok ⟨.nil, hs⟩
  | left b _ ih =>
    have hx := hs.execution
    rw [performAll_request]
    exact ih ⟨⟨hx.machine, hx.depth, hx.phase, hx.summary⟩, hs.parent, hs.world⟩
  | right b _ ih =>
    have hx := hs.execution
    rw [performAll_request]
    exact ih ⟨⟨hx.machine, hx.depth, hx.phase, hx.summary⟩, hs.parent, hs.world⟩
  | cons hc _ ih =>
    unfold Scene.performAll
    refine (twin_perform hs hc).bind ?_
    intro a a' h
    refine (ih h.2).bind ?_
    intro row row' hrow
    exact .ok ⟨List.rel_append (hc.reported h.1) hrow.1, hrow.2⟩

end Rows

end Execution

end Transact
