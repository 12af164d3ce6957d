import Transact.Proofs.Invocations
import Transact.Proofs.Nesting
import Transact.Proofs.Reached

/-!
What the diary grows by. Outside of running code only formal entries are written, and
`World.Reported` tells which events are among them; `leaves_next` lists what one request
of running code leaves, and `written_run` goes from there to the whole run.
-/

namespace Transact

namespace Entry

/-- Neither a program nor an observer has a part in it. -/
def Formal : Entry → Prop
  | .remark (.instruction _) => False
  | .remark _ | .event _ => True
  | _ => False

def event? : Entry → Option Event
  | .event e => some e
  | _ => none

theorem formal_opened (k : Message) (d : Nat) (c : Context) : (remark (k.opened d c)).Formal := by
  cases k <;> trivial

theorem formal_aborted (c : Caller) : (remark c.aborted).Formal := by
  unfold Caller.aborted
  split <;> trivial

end Entry

/-- From `w` to `w'` the diary grew by formal entries, among them the events `evs`. -/
def World.Reported {β : Type} (w w' : World β) (evs : List Event) : Prop :=
  ∃ es, w.Wrote w' es ∧ (∀ entry ∈ es, entry.Formal) ∧ es.filterMap Entry.event? = evs

namespace World.Reported

variable {β : Type} {w w' w'' : World β} {evs evs' : List Event}

theorem of_diary_eq (h : w'.diary = w.diary) : w.Reported w' [] :=
  ⟨[], .of_diary_eq h, fun _ he => absurd he List.not_mem_nil, rfl⟩

theorem refl (w : World β) : w.Reported w [] := of_diary_eq rfl

theorem trans (h : w.Reported w' evs) (h' : w'.Reported w'' evs') :
    w.Reported w'' (evs ++ evs') := by
  obtain ⟨es, hw, hf, rfl⟩ := h
  obtain ⟨es', hw', hf', rfl⟩ := h'
  refine ⟨es ++ es', hw.trans hw', ?_, List.filterMap_append⟩
  intro entry he
  exact (List.mem_append.mp he).elim (hf entry) (hf' entry)

theorem event (w : World β) (e : Event) : w.Reported (w.event e) [e] := by
  refine ⟨[.event e], .write w _, ?_, rfl⟩
  intro entry he
  cases List.mem_singleton.mp he
  trivial

theorem remark (w : World β) (r : Remark) (hr : (Entry.remark r).Formal) :
    w.Reported (w.remark r) [] := by
  refine ⟨[.remark r], .write w _, ?_, rfl⟩
  intro entry he
  cases List.mem_singleton.mp he
  exact hr

end World.Reported

namespace Machine

variable {β : Type} {m : Machine}

theorem Deposited.reported {p : Pending} {h h' : Halt} {dep : Deposit} {w w' : World β}
    (hd : m.Deposited p h w h' dep w') : w.Reported w' [] := by
  cases hd with
  | nothing => exact .refl w
  | failed => exact .remark w _ trivial
  | stored => exact .of_diary_eq rfl

theorem reported_closed (w : World β) (d : Nat) (o : Outcome) :
    w.Reported (w.closed d o) [.exit d o.exception o.gas o.output] := by
  have hremark : ∀ (v : Verdict) (r : Remark), (Entry.remark r).Formal →
      w.Reported ((w.edit (·.pop v)).remark r) [] :=
    fun v r hr => .remark (w.edit (·.pop v)) r hr
  unfold World.closed
  cases o.exception with
  | none => exact (hremark .commit (.committed d) trivial).trans (.event _ _)
  | some e => exact (hremark .revert (.excepted d e) trivial).trans (.event _ _)

variable (m) in
/-- The end of a message is reported by its exit, unless its checkpoint is gone. -/
theorem reported_conclude (d : Nat) (p : Pending) (h : Halt) (s : Substate) (w : World β) :
    ∃ evs, w.Reported (m.conclude d p h s w).2 evs := by
  obtain ⟨h', dep, w₁, hd, he⟩ := m.conclude_eq_close d p h s w
  rw [he]
  by_cases hopen : w₁.ledger.openCount = 0
  · unfold close
    rw [if_pos hopen]
    exact ⟨[], hd.reported⟩
  · rw [close_of_open d p h' dep s hopen]
    exact ⟨_, hd.reported.trans (reported_closed w₁ d _)⟩

variable [Store β]

theorem Received.reported {d : Nat} {t : Terms} {k : Message} {w w' : World β} {a : Admission}
    (h : m.Received d t k w a w') : w.Reported w' [k.event d (k.context t w.ledger)] := by
  refine ⟨_, h.wrote_announce, ?_, rfl⟩
  intro entry he
  rcases List.mem_cons.mp he with rfl | he
  · trivial
  · cases List.mem_singleton.mp he
    exact Entry.formal_opened k d _

theorem reported_refuse (d : Nat) (t : Terms) (k : Message) (w : World β) :
    w.Reported (refuse d t k w).2 [k.event d (k.context t w.ledger)] := by
  have hw := World.Reported.event w (k.event d (k.context t w.ledger))
  unfold refuse
  dsimp only
  split
  · split
    · next e _ =>
      exact hw.trans ((World.Reported.remark _ (.endowmentKept e) trivial).trans
        (.remark _ (.tooDeep d) trivial))
    · exact hw.trans (.remark _ (.tooDeep d) trivial)
  · exact hw.trans (.remark _ (.tooDeep d) trivial)

variable (m) in
/-- A message is reported when it is begun. -/
theorem reported_begin (d : Nat) (t : Terms) (k : Message) (w : World β) :
    w.Reported (m.begin d t k w).2 [k.event d (k.context t w.ledger)] := by
  unfold begin
  split
  · exact reported_refuse d t k w
  · exact (m.received d t k w).reported

end Machine

namespace Execution

variable {β : Type} [Store β]

theorem reported_start (x : Execution) (a : Option Accepted) (t : Terms) (k : Message)
    (w : World β) :
    w.Reported (x.start a t k w).2.2 [k.event x.depth (k.context t w.ledger)] := by
  have hb := x.machine.reported_begin x.depth t k w
  unfold start
  rcases hw : x.machine.begin x.depth t k w with ⟨o | p, w'⟩
  · rw [hw] at hb
    exact hb
  · rw [hw] at hb
    exact hb

theorem world_run {x : Execution} {a : Option Accepted} {p : Pending} (hx : x.phase = .awaiting a p)
    (observer : Observer) (w : World β) :
    (x.run observer w).2.2 = (x.machine.run observer x.depth p w).2 := by
  unfold run
  rw [hx]
  dsimp only
  rcases x.machine.run observer x.depth p w with ⟨o | o, w'⟩ <;> rfl

/-- Finalization reports no event. -/
theorem reported_finalize {x x' : Execution} {w w' : World β} {r : Except Error Unit}
    (h : x.finalize w = .ok (r, x', w')) : w.Reported w' [] := by
  unfold finalize at h
  split at h
  · next a o hx =>
    obtain ⟨⟨o', refunded⟩, -, h⟩ := bind_eq_ok.mp h
    cases h
    cases o'.exception with
    | none => exact .remark ((w.edit _).edit _) _ trivial
    | some e => exact .remark (w.edit _) _ trivial
  · cases h
    exact .refl w

end Execution

/-! One request of running code. -/

namespace Frame

variable {β : Type} [Store β] (f : Frame)

/-- The events of an effect that is carried out on `w`. -/
def eventsOf (e : Effect) (w : World β) : List Event :=
  match e with
  | .selfDestruct b =>
    [.selfDestruct f.context.address b (w.ledger.balance f.context.address)]
  | _ => []

theorem reported_act (e : Effect) (s : Substate) (w : World β) :
    (w.write (.act f.depth f.context.address e)).Reported (f.act e s w).2 (f.eventsOf e w) := by
  cases e with
  | selfDestruct b => exact .event (w.write _) _
  | _ => exact .of_diary_eq rfl

end Frame

namespace Machine

variable {β : Type} [Store β] (m : Machine) (observer : Observer)

/-- What one request leaves in the diary. The invocations that are active after it are at
`depths`. -/
inductive Leaves (depths : List Nat) : List Entry → Prop
  | formal {es : List Entry} (h : ∀ entry ∈ es, entry.Formal) : Leaves depths es
  | step {s : Step} (h : s.depth ∈ depths) :
      Leaves depths (.step s :: (observer s).map .remark)
  | act {d : Nat} {a : Address} {e : Effect} {es : List Entry}
      (h : ∀ entry ∈ es, entry.Formal) : Leaves depths (.act d a e :: es)
  | note {d : Nat} {s : Sighting} : Leaves depths [.note d s]
  | enter {es : List Entry} {v : Invocation} (h : ∀ entry ∈ es, entry.Formal)
      (hv : v.depth ∈ depths) : Leaves depths (es ++ [.enter v])

theorem leaves_post (callers : List Caller) (d : Nat) (t : Terms) (k : Message) (w : World β) :
    ∃ es, w.Wrote (m.post callers d t k w).world es ∧
      Leaves observer (m.post callers d t k w).depths es := by
  obtain ⟨es, hw, hf, -⟩ := m.reported_begin d t k w
  unfold post
  rcases hb : m.begin d t k w with ⟨o | p, w₁⟩
  · rw [hb] at hw
    exact ⟨es, hw, .formal hf⟩
  · rw [hb] at hw
    exact ⟨_, hw.trans (.write w₁ _), .enter hf List.mem_cons_self⟩

theorem leaves_next (a : Activity β) :
    ∃ es, a.world.Wrote (m.next observer a).world es ∧
      Leaves observer (m.next observer a).depths es := by
  cases a with
  | ended callers e w =>
    cases callers with
    | nil => exact ⟨[], .refl w, .formal fun _ he => absurd he List.not_mem_nil⟩
    | cons c callers =>
      cases e with
      | closed o => exact ⟨[], .refl w, .formal fun _ he => absurd he List.not_mem_nil⟩
      | uneven o =>
        obtain ⟨es, hw, hf, -⟩ := World.Reported.remark w c.aborted (Entry.formal_aborted c)
        exact ⟨es, hw, .formal hf⟩
  | running callers a p w =>
    cases p with
    | halt h =>
      obtain ⟨_, es, hw, hf, -⟩ := m.reported_conclude a.depth a.pending h a.substate w
      exact ⟨es, hw, .formal hf⟩
    | step i p =>
      exact ⟨_, (World.Wrote.write w _).trans (.remarks _ _), .step List.mem_cons_self⟩
    | read q k => exact ⟨[], .refl w, .formal fun _ he => absurd he List.not_mem_nil⟩
    | act e p =>
      obtain ⟨es, hw, hf, -⟩ :=
        (m.frame a.depth a.pending.context observer).reported_act e a.substate w
      exact ⟨_, (World.Wrote.write w _).trans hw, .act hf⟩
    | call c k => exact m.leaves_post observer _ _ _ _ w
    | create endowment gas initCode k =>
      exact m.leaves_post observer _ _ _ _ (w.edit (·.bumpNonce a.pending.context.address))
    | note s p => exact ⟨_, .write w _, .note⟩
    | direct op k =>
      exact ⟨[], .of_diary_eq rfl, .formal fun _ he => absurd he List.not_mem_nil⟩

end Machine

/-! All requests of running code. -/

/-- What was written from `w` to `a` satisfies `P`. -/
def Activity.Written {β : Type} (P : List Entry → Prop) (w : World β) (a : Activity β) : Prop :=
  ∃ es, w.Wrote a.world es ∧ P es

namespace Machine

variable {β : Type} [Store β] (m : Machine) (observer : Observer)

section Written

variable {m observer} {P : List Entry → Prop}
  (hP : ∀ es depths es', P es → Leaves observer depths es' → P (es ++ es'))
include hP

theorem written_next {w : World β} {a : Activity β} (h : a.Written P w) :
    (m.next observer a).Written P w := by
  obtain ⟨es, hw, hes⟩ := h
  obtain ⟨es', hw', hl⟩ := m.leaves_next observer a
  exact ⟨es ++ es', hw.trans hw', hP es _ es' hes hl⟩

/-- What holds of the entry of the code, and is kept whatever a request leaves, holds of all
that the run writes. -/
theorem written_run {d : Nat} {p : Pending} (henter : P [.enter (m.invocation d p)])
    (w : World β) : ∃ es, w.Wrote (m.run observer d p w).2 es ∧ P es := by
  have hstart : (m.enter [] d p w).Written P w := ⟨_, .write w _, henter⟩
  exact Leads.invariant (P := Activity.Written P w) (fun _ => written_next hP)
    (m.leads_run observer d p w) hstart

end Written

/-- Pending code is entered before anything else is written. -/
theorem run_enters (d : Nat) (p : Pending) (w : World β) :
    ∃ es, w.Wrote (m.run observer d p w).2 (.enter (m.invocation d p) :: es) := by
  obtain ⟨_, hw, es, rfl⟩ := written_run (P := List.IsPrefix [.enter (m.invocation d p)])
    (fun es _ es' h (_ : Leaves observer _ es') => h.trans (List.prefix_append es es'))
    (List.prefix_refl _) w
  exact ⟨es, hw⟩

end Machine

end Transact
