import Transact.Proofs.Reached
import Transact.Proofs.Reporting

/-!
The depth limit. The active invocations form a stack without gaps that ends at the
limit, whatever the code does, and code at the limit is refused what it sends. Main
statement: `call_depth_is_limited`.
-/

namespace Transact

/-- The depth at which an interpreter is entered or an instruction performed. -/
def Entry.place? : Entry → Option Nat
  | .enter v => some v.depth
  | .step s => some s.depth
  | _ => none

theorem Entry.Formal.place?_eq_none {entry : Entry} (h : entry.Formal) : entry.place? = none := by
  cases entry with
  | enter _ => exact h.elim
  | step _ => exact h.elim
  | _ => rfl

/-- Code runs only from depth `d` to depth `limit`. -/
def World.RunsWithin {β : Type} (d limit : Nat) (w w' : World β) : Prop :=
  ∃ es, w.Wrote w' es ∧ ∀ entry ∈ es, ∀ k, entry.place? = some k → d ≤ k ∧ k ≤ limit

namespace World.RunsWithin

variable {β : Type} {d limit : Nat} {w w' w'' : World β}

theorem of_unplaced {es : List Entry} (hw : w.Wrote w' es)
    (h : ∀ entry ∈ es, entry.place? = none) : w.RunsWithin d limit w' := by
  refine ⟨es, hw, ?_⟩
  intro entry he k hk
  rw [h entry he] at hk
  cases hk

theorem refl (w : World β) : w.RunsWithin d limit w :=
  of_unplaced (.refl w) fun _ he => absurd he List.not_mem_nil

theorem trans (h : w.RunsWithin d limit w') (h' : w'.RunsWithin d limit w'') :
    w.RunsWithin d limit w'' := by
  obtain ⟨es, hw, hes⟩ := h
  obtain ⟨es', hw', hes'⟩ := h'
  refine ⟨es ++ es', hw.trans hw', ?_⟩
  intro entry he
  exact (List.mem_append.mp he).elim (hes entry) (hes' entry)

theorem of_reported {evs : List Event} (h : w.Reported w' evs) : w.RunsWithin d limit w' := by
  obtain ⟨es, hw, hf, -⟩ := h
  exact of_unplaced hw fun entry he => (hf entry he).place?_eq_none

theorem remarks (w : World β) (rs : List Remark) : w.RunsWithin d limit (w.remarks rs) := by
  refine of_unplaced (.remarks w rs) ?_
  intro entry he
  obtain ⟨r, -, rfl⟩ := List.mem_map.mp he
  rfl

end World.RunsWithin

/-! The stack of active invocations. -/

/-- The invocations at `depths`, the innermost first, are at `d`, `d + 1` and so on
without a gap, up to `limit` at most. -/
structure Stacked (d limit : Nat) (depths : List Nat) : Prop where
  reverse_eq : depths.reverse = List.range' d depths.length
  length_le : d + depths.length ≤ limit + 1

namespace Stacked

variable {d limit k : Nat} {depths : List Nat}

theorem mem (h : Stacked d limit depths) (hk : k ∈ depths) : d ≤ k ∧ k ≤ limit := by
  rw [← List.mem_reverse, h.reverse_eq, List.mem_range'_1] at hk
  have hl := h.length_le
  omega

theorem cons_iff : Stacked d limit (k :: depths) ↔
    k = d + depths.length ∧ k ≤ limit ∧ Stacked d limit depths := by
  have hrange : List.range' d (depths.length + 1) =
      List.range' d depths.length ++ [d + depths.length] := List.range'_1_concat
  constructor
  · rintro ⟨hr, hl⟩
    rw [List.length_cons] at hr hl
    rw [List.reverse_cons, hrange] at hr
    obtain ⟨hrest, hk⟩ := List.append_inj' hr rfl
    have hk : k = d + depths.length := List.singleton_inj.mp hk
    exact ⟨hk, by omega, hrest, by omega⟩
  · rintro ⟨rfl, hle, hr, hl⟩
    refine ⟨?_, by rw [List.length_cons]; omega⟩
    rw [List.reverse_cons, List.length_cons, hrange, hr]

theorem tail (h : Stacked d limit (k :: depths)) : Stacked d limit depths :=
  (cons_iff.mp h).2.2

/-- The innermost invocation starts one a level deeper. -/
theorem push (h : Stacked d limit (k :: depths)) (hk : k + 1 ≤ limit) :
    Stacked d limit ((k + 1) :: k :: depths) := by
  obtain ⟨rfl, -, -⟩ := cons_iff.mp h
  exact cons_iff.mpr ⟨rfl, hk, h⟩

theorem singleton (h : d ≤ limit) : Stacked d limit [d] := ⟨rfl, Nat.succ_le_succ h⟩

end Stacked

namespace Machine

variable {β : Type} [Store β] (m : Machine) (observer : Observer)

theorem stacked_post {d : Nat} {c : Caller} {callers : List Caller} (t : Terms) (k : Message)
    (w : World β) (h : Stacked d m.rules.callDepthLimit (c.depth :: callers.map (·.depth))) :
    Stacked d m.rules.callDepthLimit (m.post (c :: callers) (c.depth + 1) t k w).depths := by
  unfold post
  rcases hb : m.begin (c.depth + 1) t k w with ⟨o | p, w₁⟩
  · exact h
  · exact h.push (begin_eq_pending hb).1

/-- A request takes at most one invocation from the stack or puts one on it. -/
theorem stacked_next {d : Nat} (a : Activity β)
    (h : Stacked d m.rules.callDepthLimit a.depths) :
    Stacked d m.rules.callDepthLimit (m.next observer a).depths := by
  cases a with
  | ended callers e w =>
    cases callers with
    | nil => exact h
    | cons c callers => cases e <;> exact h
  | running callers a p w =>
    cases p with
    | halt _ => exact h.tail
    | call c k => exact m.stacked_post (c := ⟨a, false, _⟩) _ _ _ h
    | create endowment gas initCode k => exact m.stacked_post (c := ⟨a, true, _⟩) _ _ _ h
    | _ => exact h

/-- One request leaves marks of code only at depths that are active. -/
theorem runsWithin_next {d : Nat} (a : Activity β)
    (h : Stacked d m.rules.callDepthLimit (m.next observer a).depths) :
    a.world.RunsWithin d m.rules.callDepthLimit (m.next observer a).world := by
  obtain ⟨es, hw, hl⟩ := m.leaves_next observer a
  refine ⟨es, hw, ?_⟩
  intro entry he k hk
  cases hl with
  | formal hf =>
    rw [(hf entry he).place?_eq_none] at hk
    cases hk
  | step hs =>
    rcases List.mem_cons.mp he with rfl | he
    · cases hk
      exact h.mem hs
    · obtain ⟨r, -, rfl⟩ := List.mem_map.mp he
      cases hk
  | act hf =>
    rcases List.mem_cons.mp he with rfl | he
    · cases hk
    · rw [(hf entry he).place?_eq_none] at hk
      cases hk
  | note =>
    cases List.mem_singleton.mp he
    cases hk
  | enter hf hv =>
    rcases List.mem_append.mp he with he | he
    · rw [(hf entry he).place?_eq_none] at hk
      cases hk
    · cases List.mem_singleton.mp he
      cases hk
      exact h.mem hv

end Machine

/-- The active invocations of `a` are stacked from depth `d`, and since `w` code ran only
from there to the limit. -/
structure Activity.Bounded {β : Type} (d limit : Nat) (w : World β) (a : Activity β) : Prop where
  depths : Stacked d limit a.depths
  world : w.RunsWithin d limit a.world

namespace Machine

variable {β : Type} [Store β] (m : Machine) (observer : Observer)

omit [Store β] in
theorem bounded_enter {d : Nat} (hd : d ≤ m.rules.callDepthLimit) (p : Pending) (w : World β) :
    (m.enter [] d p w).Bounded d m.rules.callDepthLimit w := by
  refine ⟨.singleton hd, [.enter (m.invocation d p)], .write w _, ?_⟩
  intro entry he k hk
  cases List.mem_singleton.mp he
  cases hk
  exact ⟨Nat.le_refl d, hd⟩

/-- What a step writes is within the limit because the stack after it is. -/
theorem bounded_next {d : Nat} {w : World β} {a : Activity β}
    (h : a.Bounded d m.rules.callDepthLimit w) :
    (m.next observer a).Bounded d m.rules.callDepthLimit w := by
  have hs := m.stacked_next observer a h.depths
  exact ⟨hs, h.world.trans (m.runsWithin_next observer a hs)⟩

variable {m observer} in
theorem Leads.bounded {d : Nat} {p : Pending} {w : World β} {a : Activity β}
    (h : m.Leads observer (m.enter [] d p w) a) (hd : d ≤ m.rules.callDepthLimit) :
    a.Bounded d m.rules.callDepthLimit w :=
  h.invariant (P := Activity.Bounded d m.rules.callDepthLimit w)
    (fun _ => m.bounded_next observer) (m.bounded_enter hd p w)

theorem stacked_iterate {d : Nat} (hd : d ≤ m.rules.callDepthLimit) (p : Pending) (w : World β)
    (n : Nat) :
    Stacked d m.rules.callDepthLimit ((m.next observer)^[n] (m.enter [] d p w)).depths :=
  (Leads.bounded ⟨n, rfl⟩ hd).depths

theorem runsWithin_run {d : Nat} (hd : d ≤ m.rules.callDepthLimit) (p : Pending)
    (w : World β) : w.RunsWithin d m.rules.callDepthLimit (m.run observer d p w).2 :=
  ((m.leads_run observer d p w).bounded hd).world

end Machine

/-! Code at the limit. -/

/-- `l` when a creation of `creator` was refused for its depth: its endowment has moved to
where the contract would have been, if `creator` had as much. -/
def Ledger.payBeyond {β : Type} [Store β] (l : Ledger β) (creator : Address)
    (endowment : Quantity) : Ledger β :=
  if endowment ≤ l.balance creator then
    (l.setBalance creator (l.balance creator - endowment)).credit (l.creationTarget creator)
      endowment
  else l

theorem Message.leftOver_create {β : Type} [Store β] (l : Ledger β) (c : Creation) :
    (Message.create c).leftOver l = l.payBeyond c.creator c.endowment := by
  unfold leftOver Ledger.payBeyond Ledger.transfer Ledger.debit
  by_cases hle : c.endowment ≤ l.balance c.creator
  · have hlt : ¬ l.balance c.creator < c.endowment := Nat.not_lt.mpr hle
    simp only [if_neg hlt, if_pos hle, Except.map]
  · have hlt : l.balance c.creator < c.endowment := Nat.lt_of_not_le hle
    simp only [if_pos hlt, if_neg hle, Except.map]

namespace Machine

variable {β : Type} [Store β] (m : Machine) (observer : Observer)

/-- A call beyond the limit is refused without a trace in the ledger. -/
theorem runCode_call_at_limit (c : Context) (s : Substate) (w : World β) (k : Call) :
    ∃ w', w'.ledger = w.ledger ∧ ∀ next,
      m.runCode observer m.rules.callDepthLimit c (.call k next) s w =
        m.runCode observer m.rules.callDepthLimit c (next ⟨false, 0, []⟩) s w' := by
  have hs := m.send_of_lt observer c.terms (.call k) w (Nat.lt_succ_self _)
  exact ⟨_, ledger_refuse _ _ _ _, runCode_call hs⟩

/-- A creation beyond the limit is refused, but it costs a nonce and its endowment is
moved if there is enough. -/
theorem runCode_create_at_limit (c : Context) (s : Substate) (w : World β)
    (endowment gas : Quantity) (initCode : Bytes) :
    ∃ w', w'.ledger = (w.ledger.bumpNonce c.address).payBeyond c.address endowment ∧ ∀ next,
      m.runCode observer m.rules.callDepthLimit c (.create endowment gas initCode next) s w =
        m.runCode observer m.rules.callDepthLimit c (next ⟨none, 0, []⟩) s w' := by
  let message : Message := .create ⟨c.address, endowment, gas, initCode⟩
  have hs := m.send_of_lt observer c.terms message (w.edit (·.bumpNonce c.address))
    (Nat.lt_succ_self _)
  refine ⟨_, ?_, runCode_create hs⟩
  rw [ledger_refuse, Message.leftOver_create]
  rfl

end Machine

/-- Code waits to be run at `depth` only if `limit` allows it. -/
def Phase.WaitsWithin (depth limit : Nat) : Phase → Prop
  | .awaiting .. => depth ≤ limit
  | _ => True

namespace Execution

variable {β : Type} [Store β] {m : Machine} {depth : Nat} {x : Execution}

theorem Moved.waitsWithin {phase : Phase} (h : x.Moved β phase)
    (hx : x.phase.WaitsWithin x.depth x.machine.rules.callDepthLimit) :
    phase.WaitsWithin x.depth x.machine.rules.callDepthLimit := by
  cases h with
  | stay => exact hx
  | pending _ hb => exact (Machine.begin_eq_pending hb).1
  | finalize =>
    unfold conclude
    dsimp only
    split <;> trivial
  | _ => trivial

theorem Reached.waitsWithin (h : Reached β m depth x) :
    x.phase.WaitsWithin depth m.rules.callDepthLimit := by
  refine h.invariant trivial ?_
  rintro y phase rfl rfl hy hmoved
  exact hmoved.waitsWithin hy

theorem Reached.depth_le (h : Reached β m depth x) {a : Option Accepted} {p : Pending}
    (hx : x.phase = .awaiting a p) : depth ≤ m.rules.callDepthLimit := by
  have hwaits := h.waitsWithin
  rw [hx] at hwaits
  exact hwaits

theorem runsWithin_accept (x : Execution) (t : Transaction) (w : World β) (d limit : Nat) :
    w.RunsWithin d limit (x.accept t w).2.2 := by
  unfold accept
  split
  · split
    · exact .of_reported (.of_diary_eq rfl)
    · exact .remarks w _
  · exact .refl w

theorem reported_execute (x : Execution) (w : World β) :
    ∃ evs, w.Reported (x.execute w).2.2 evs := by
  unfold execute
  split
  · next a _ =>
    split
    · exact ⟨[], .refl w⟩
    · next l _ =>
      have hevent : w.Reported (({ w with ledger := l } : World β).event a.event) [a.event] :=
        .event { w with ledger := l } a.event
      exact ⟨_, hevent.trans (x.reported_start (some a) a.terms a.message _)⟩
  · exact ⟨[], .refl w⟩

theorem reported_dispatch (x : Execution) (t : Terms) (k : Message) (w : World β) :
    ∃ evs, w.Reported (x.dispatch t k w).2.2 evs := by
  unfold dispatch
  split
  · exact ⟨_, x.reported_start none t k w⟩
  · exact ⟨[], .refl w⟩

theorem Reached.runsWithin_run (h : Reached β m depth x) (observer : Observer) (w : World β) :
    w.RunsWithin depth m.rules.callDepthLimit (x.run observer w).2.2 := by
  by_cases hx : ∃ a p, x.phase = .awaiting a p
  · obtain ⟨a, p, hx⟩ := hx
    rw [world_run hx, h.machine_eq, h.depth_eq]
    exact m.runsWithin_run observer (h.depth_le hx) p w
  · unfold run
    split
    · next a p hp => exact absurd ⟨a, p, hp⟩ hx
    · exact .refl w

/-- Only running code enters interpreters and performs instructions. -/
theorem Reached.runsWithin_perform {s s' : Scene β} {c : Command} {r : Reply}
    (hs : Reached β m depth s.execution) (h : s.perform c = .ok (r, s')) :
    s.world.RunsWithin depth m.rules.callDepthLimit s'.world := by
  cases c with
  | accept t =>
    cases h
    exact runsWithin_accept s.execution t s.world _ _
  | execute =>
    cases h
    obtain ⟨evs, he⟩ := reported_execute s.execution s.world
    exact .of_reported he
  | dispatch t k =>
    cases h
    obtain ⟨evs, he⟩ := reported_dispatch s.execution t k s.world
    exact .of_reported he
  | run observer =>
    cases h
    exact hs.runsWithin_run observer s.world
  | finalize =>
    obtain ⟨done, x, w, hf, -, rfl⟩ := finalize_of_perform h
    exact .of_reported (reported_finalize hf)
  | handOver =>
    cases h
    exact .refl s.world
  | requestSummary withPath =>
    cases h
    exact .refl s.world
  | takeSummary =>
    cases h
    exact .refl s.world

end Execution

/-- Interpreters are entered and instructions performed only from the depth of the
execution to the limit `L`. While code runs, the active invocations are at that depth and
the following ones without a gap, none above `L`, and the run comes to its end. At `L` a
call fails without a trace, and a creation fails at the cost of a nonce and, where it can
be paid, the endowment. -/
theorem call_depth_is_limited {β : Type} [Store β] (m : Machine) (depth : Nat) :
    (∀ (s s' : Execution.Scene β) (c : Execution.Command) (r : Execution.Reply),
      Execution.Reached β m depth s.execution → s.perform c = .ok (r, s') →
      ∀ entry ∈ s'.world.since s.world, ∀ k, entry.place? = some k →
        depth ≤ k ∧ k ≤ m.rules.callDepthLimit) ∧
    (∀ (x : Execution) (a : Option Accepted) (p : Pending) (observer : Observer) (w : World β),
      Execution.Reached β m depth x → x.phase = .awaiting a p →
      depth ≤ m.rules.callDepthLimit ∧
      (∀ n, Stacked depth m.rules.callDepthLimit
        ((m.next observer)^[n] (m.enter [] depth p w)).depths) ∧
      ∃ n, (m.next observer)^[n] (m.enter [] depth p w) =
        .ended [] (m.run observer depth p w).1 (x.run observer w).2.2) ∧
    (∀ (observer : Observer) (c : Context) (s : Substate) (w : World β),
      (∀ k, ∃ w', w'.ledger = w.ledger ∧ ∀ next,
        m.runCode observer m.rules.callDepthLimit c (.call k next) s w =
          m.runCode observer m.rules.callDepthLimit c (next ⟨false, 0, []⟩) s w') ∧
      ∀ endowment gas initCode, ∃ w',
        w'.ledger = (w.ledger.bumpNonce c.address).payBeyond c.address endowment ∧ ∀ next,
        m.runCode observer m.rules.callDepthLimit c (.create endowment gas initCode next) s w =
          m.runCode observer m.rules.callDepthLimit c (next ⟨none, 0, []⟩) s w') := by
  refine ⟨?_, ?_, ?_⟩
  · intro s s' c r hs h entry he k hk
    obtain ⟨es, hw, hes⟩ := hs.runsWithin_perform h
    rw [hw.since_eq] at he
    exact hes entry he k hk
  · intro x a p observer w hx hp
    have hd := hx.depth_le hp
    obtain ⟨n, hn⟩ := m.leads_run observer depth p w
    refine ⟨hd, m.stacked_iterate observer hd p w, n, ?_⟩
    rw [Execution.world_run hp, hx.machine_eq, hx.depth_eq]
    exact hn
  · intro observer c s w
    exact ⟨m.runCode_call_at_limit observer c s w, m.runCode_create_at_limit observer c s w⟩

/-- Code that calls itself at any depth. -/
def Interpreter.descending : Interpreter := fun v => .call .toSelf fun _ => .halt ⟨v.gas, [], none⟩

def Machine.shallow : Machine :=
  { Machine.plain .descending with rules := { Rules.istanbul with callDepthLimit := 1 } }

theorem descending_code_stops_at_limit :
    ∃ (x : Execution) (p : Pending) (w : World State),
      Execution.Reached State .shallow 0 x ∧ x.phase = .awaiting none p ∧
      (∀ entry ∈ (x.run .silent w).2.2.since w, ∀ d, entry.place? = some d → d ≤ 1) ∧
      ((Machine.shallow.next .silent) (Machine.shallow.enter [] 0 p w)).depths = [1, 0] ∧
      Stacked 0 1 [1, 0] ∧
      ∀ (c : Context) (s : Substate), ∃ w', w'.ledger = w.ledger ∧ ∀ next,
        Machine.shallow.runCode .silent 1 c (.call .toSelf next) s w =
          Machine.shallow.runCode .silent 1 c (next ⟨false, 0, []⟩) s w' := by
  obtain ⟨hdiary, hstack, hlimit⟩ := call_depth_is_limited (β := State) .shallow 0
  let begun := (Execution.new .shallow 0).dispatch ⟨7, 1⟩ (.call .toSelf) World.plain
  have hreached : Execution.Reached State .shallow 0 begun.2.1 :=
    Execution.Reached.new.step (s := ⟨.new .shallow 0, ∅, .plain⟩)
      (c := .dispatch ⟨7, 1⟩ (.call .toSelf)) rfl
  obtain ⟨p, hp⟩ : ∃ p, begun.2.1.phase = .awaiting none p := ⟨_, rfl⟩
  have hdepths : ((Machine.shallow.next .silent)
      (Machine.shallow.enter [] 0 p begun.2.2)).depths = [1, 0] := by
    cases hp
    rfl
  have hstacked := (hstack begun.2.1 none p .silent begun.2.2 hreached hp).2.1 1
  rw [Function.iterate_one, hdepths] at hstacked
  have hrun : (⟨begun.2.1, ∅, begun.2.2⟩ : Execution.Scene State).perform (.run .silent) =
      .ok (.ofUnit (begun.2.1.run .silent begun.2.2).1,
        ⟨(begun.2.1.run .silent begun.2.2).2.1, ∅, (begun.2.1.run .silent begun.2.2).2.2⟩) := rfl
  refine ⟨begun.2.1, p, begun.2.2, hreached, hp, ?_, hdepths, hstacked, ?_⟩
  · intro entry he d hk
    exact (hdiary _ _ _ _ hreached hrun entry he d hk).2
  · intro c s
    exact (hlimit .silent c s begun.2.2).1 .toSelf

end Transact
