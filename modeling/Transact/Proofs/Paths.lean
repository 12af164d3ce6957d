import Transact.Proofs.Finalization
import Transact.Proofs.Reached
import Transact.Proofs.Reporting
import Transact.Proofs.Summaries

/-!
The execution path that a summary shows. It is recorded by the one run of the code, if it
is asked for then, and shown by finalization, if it is asked for then. Main statement:
`observation_does_not_interfere`.
-/

namespace Transact

namespace Entry

def step? : Entry → Option Step
  | .step s => some s
  | _ => none

/-- The instruction that a narrating observer tells here. -/
def narrated? : Entry → Option Step
  | .remark (.instruction s) => some s
  | _ => none

end Entry

/-! What a run writes, and what a narrating observer tells of it. -/

/-- Each instruction in `es` is told once, in the same order. -/
def Narrates (es : List Entry) : Prop :=
  es.filterMap Entry.narrated? = es.filterMap Entry.step?

namespace Narrates

variable {es es' : List Entry}

theorem append (h : Narrates es) (h' : Narrates es') : Narrates (es ++ es') := by
  unfold Narrates at *
  rw [List.filterMap_append, List.filterMap_append, h, h']

theorem of_formal (h : ∀ entry ∈ es, entry.Formal) : Narrates es := by
  refine List.filterMap_congr ?_
  intro entry he
  have hf := h entry he
  cases entry with
  | remark r => cases r <;> first | rfl | exact hf.elim
  | event e => rfl
  | _ => exact hf.elim

theorem of_leaves {depths : List Nat} (h : Machine.Leaves .narrating depths es) :
    Narrates es := by
  cases h with
  | formal hf => exact of_formal hf
  | step _ => rfl
  | @act d a e _ hf => exact append (rfl : Narrates [.act d a e]) (of_formal hf)
  | note => rfl
  | enter hf _ => exact append (of_formal hf) rfl

end Narrates

/-- A narrating observer tells every instruction of a run. -/
theorem Machine.narrates_run {β : Type} [Store β] (m : Machine) (d : Nat) (p : Pending)
    (w : World β) : ∃ es, w.Wrote (m.run .narrating d p w).2 es ∧ Narrates es := by
  have hentry : Narrates [.enter (m.invocation d p)] := rfl
  exact written_run (fun _ _ _ h hl => h.append (.of_leaves hl)) hentry w

theorem filterMap_step?_unremarked (es : List Entry) :
    (es.filter fun e => !e.isRemark).filterMap Entry.step? = es.filterMap Entry.step? := by
  rw [List.filterMap_filter]
  refine List.filterMap_congr ?_
  intro entry _
  cases entry <;> rfl

/-- Twin worlds that grew out of the same world performed the same instructions. -/
theorem World.Twin.steps_eq {β : Type} {w w₁ w₂ : World β} {es es' : List Entry}
    (h : w₁.Twin w₂) (hw : w.Wrote w₁ es) (hw' : w.Wrote w₂ es') :
    es'.filterMap Entry.step? = es.filterMap Entry.step? := by
  have hd := h.diary
  unfold Diary.unremarked at hd
  rw [hw, hw', List.filter_append, List.filter_append] at hd
  rw [← filterMap_step?_unremarked es', ← filterMap_step?_unremarked es,
    List.append_cancel_left hd]

/-- No code waits to be run any more. -/
def Phase.Past : Phase → Prop
  | .created | .accepted _ | .awaiting .. => False
  | _ => True

namespace Execution

/-- What a command asks for: a summary with the path or without, or nothing. -/
def Command.request? : Command → Option Bool
  | .requestSummary b => some b
  | _ => none

/-- What `cs` ask for last. -/
def lastRequest (cs : List Command) : Option Bool := (cs.filterMap Command.request?).getLast?

theorem lastRequest_cons (c : Command) (cs : List Command) :
    lastRequest (c :: cs) = (lastRequest cs).or c.request? := by
  unfold lastRequest
  cases hc : c.request? with
  | none => rw [List.filterMap_cons_none hc, Option.or_none]
  | some b =>
    rw [List.filterMap_cons_some hc, List.getLast?_cons]
    cases (cs.filterMap Command.request?).getLast? <;> rfl

theorem lastRequest_append (cs cs' : List Command) :
    lastRequest (cs ++ cs') = (lastRequest cs').or (lastRequest cs) := by
  unfold lastRequest
  rw [List.filterMap_append, List.getLast?_append]

variable {β : Type} [Store β]

theorem Moved.past {x : Execution} {phase : Phase} (h : x.Moved β phase) (hx : x.phase.Past) :
    phase.Past := by
  cases h with
  | stay => exact hx
  | accept hp | unpaid hp | close hp | stick hp =>
    rw [hp] at hx
    exact hx.elim
  | done hs | pending hs =>
    cases hs with
    | transaction hp | bare hp =>
      rw [hp] at hx
      exact hx.elim
  | finalize =>
    unfold conclude
    dsimp only
    split <;> trivial
  | _ => trivial

/-- Nothing is asked of `x'` or recorded in it but what was in `x`. -/
structure Kept (x x' : Execution) : Prop where
  wanted : x'.wanted = x.wanted
  path : x'.path = x.path

section Kept

variable (x : Execution) (w : World β)

theorem kept_accept (t : Transaction) : x.Kept (x.accept t w).2.1 := by
  unfold accept
  split
  · split <;> exact ⟨rfl, rfl⟩
  · exact ⟨rfl, rfl⟩

theorem kept_start (a : Option Accepted) (t : Terms) (k : Message) :
    x.Kept (x.start a t k w).2.1 := by
  unfold start
  rcases x.machine.begin x.depth t k w with ⟨o | p, w'⟩ <;> exact ⟨rfl, rfl⟩

theorem kept_execute : x.Kept (x.execute w).2.1 := by
  unfold execute
  split
  · split
    · exact ⟨rfl, rfl⟩
    · exact x.kept_start _ _ _ _
  · exact ⟨rfl, rfl⟩

theorem kept_dispatch (t : Terms) (k : Message) : x.Kept (x.dispatch t k w).2.1 := by
  unfold dispatch
  split
  · exact x.kept_start _ _ _ _
  · exact ⟨rfl, rfl⟩

theorem kept_handOver (parent : Substate) : x.Kept (x.handOver parent).2.1 := by
  unfold handOver
  split
  · split <;> exact ⟨rfl, rfl⟩
  · exact ⟨rfl, rfl⟩

theorem kept_finalize {x x' : Execution} {w w' : World β} {r : Except Error Unit}
    (h : x.finalize w = .ok (r, x', w')) : x.Kept x' := by
  unfold finalize at h
  split at h
  · obtain ⟨paid, -, h⟩ := bind_eq_ok.mp h
    cases h
    exact ⟨rfl, rfl⟩
  · cases h
    exact ⟨rfl, rfl⟩

end Kept

/-- How a command goes on with what is asked and with the path. -/
inductive Recorded (s s' : Scene β) : Command → Prop
  | kept {c : Command} (hc : c.request? = none) (h : s.execution.Kept s'.execution) :
      Recorded s s' c
  | asked {b : Bool} (hw : s'.execution.wanted = some b)
      (hp : s'.execution.path = s.execution.path) : Recorded s s' (.requestSummary b)
  | ran {observer : Observer} {a : Option Accepted} {p : Pending}
      (hx : s.execution.phase = .awaiting a p) (hw : s'.execution.wanted = s.execution.wanted)
      (hp : s'.execution.path = s.execution.path ++
        (if s.execution.wanted = some true then
          (s'.world.diary.since s.world.diary.size).steps else []).map Step.onPath)
      (hpast : s'.execution.phase.Past) : Recorded s s' (.run observer)

/-- The run of the code records its instructions if the path is asked for. -/
theorem perform_run {s s' : Scene β} {a : Option Accepted} {p : Pending} {observer : Observer}
    {r : Reply} (hx : s.execution.phase = .awaiting a p)
    (h : s.perform (.run observer) = .ok (r, s')) :
    let ran := (s.execution.machine.run observer s.execution.depth p s.world).2
    let steps := if s.execution.wanted = some true then
      (ran.diary.since s.world.diary.size).steps else []
    ∃ phase, phase.Past ∧ s' = ⟨{ s.execution with
      phase, path := s.execution.path ++ steps.map Step.onPath }, s.parent, ran⟩ := by
  obtain ⟨-, rfl⟩ := Prod.mk.inj (Except.ok.inj h)
  rw [hx]
  dsimp only
  rcases s.execution.machine.run observer s.execution.depth p s.world with ⟨o | o, w'⟩
  · exact ⟨.executed a o, trivial, rfl⟩
  · exact ⟨.stuck a o, trivial, rfl⟩

theorem kept_run {x : Execution} (hx : ¬ ∃ a p, x.phase = .awaiting a p) (observer : Observer)
    (w : World β) : x.Kept (x.run observer w).2.1 := by
  unfold run
  split
  · next a p hp => exact absurd ⟨a, p, hp⟩ hx
  · exact ⟨rfl, rfl⟩

theorem recorded_perform {s s' : Scene β} {c : Command} {r : Reply}
    (h : s.perform c = .ok (r, s')) : Recorded s s' c := by
  cases c with
  | accept t =>
    cases h
    exact .kept rfl (s.execution.kept_accept s.world t)
  | execute =>
    cases h
    exact .kept rfl (s.execution.kept_execute s.world)
  | dispatch t k =>
    cases h
    exact .kept rfl (s.execution.kept_dispatch s.world t k)
  | run observer =>
    by_cases hx : ∃ a p, s.execution.phase = .awaiting a p
    · obtain ⟨a, p, hx⟩ := hx
      obtain ⟨phase, hpast, rfl⟩ := perform_run hx h
      exact .ran hx rfl rfl hpast
    · cases h
      exact .kept rfl (kept_run hx observer s.world)
  | finalize =>
    obtain ⟨done, x, w, hf, -, rfl⟩ := finalize_of_perform h
    exact .kept rfl (kept_finalize hf)
  | handOver =>
    cases h
    exact .kept rfl (s.execution.kept_handOver s.parent)
  | requestSummary b =>
    cases h
    exact .asked rfl rfl
  | takeSummary =>
    cases h
    exact .kept rfl ⟨rfl, rfl⟩

theorem wanted_perform {s s' : Scene β} {c : Command} {r : Reply}
    (h : s.perform c = .ok (r, s')) :
    s'.execution.wanted = c.request?.or s.execution.wanted := by
  cases recorded_perform h with
  | kept hc hk => rw [hk.wanted, hc, Option.none_or]
  | asked hw _ => exact hw
  | ran _ hw _ _ => exact hw

/-- Commands in a row that all go through. -/
theorem performAll_cons {s s' : Scene β} {c : Command} {cs : List Command} {rs : List Reply}
    (h : s.performAll (c :: cs) = .ok (rs, s')) :
    ∃ r s₁ rs₁, s.perform c = .ok (r, s₁) ∧ s₁.performAll cs = .ok (rs₁, s') := by
  rw [Scene.performAll] at h
  obtain ⟨⟨r, s₁⟩, hc, h⟩ := bind_eq_ok.mp h
  obtain ⟨⟨rs₁, s₂⟩, hcs, h⟩ := bind_eq_ok.mp h
  cases h
  exact ⟨r, s₁, rs₁, hc, hcs⟩

theorem wanted_performAll {s s' : Scene β} {cs : List Command} {rs : List Reply}
    (h : s.performAll cs = .ok (rs, s')) :
    s'.execution.wanted = (lastRequest cs).or s.execution.wanted := by
  induction cs generalizing s rs with
  | nil =>
    cases h
    rfl
  | cons c cs ih =>
    obtain ⟨r, s₁, rs₁, hc, hcs⟩ := performAll_cons h
    rw [ih hcs, wanted_perform hc, lastRequest_cons, Option.or_assoc]

theorem wanted_of_new {m : Machine} {depth : Nat} {parent : Substate} {w : World β}
    {s : Scene β} {cs : List Command} {rs : List Reply}
    (h : (⟨.new m depth, parent, w⟩ : Scene β).performAll cs = .ok (rs, s)) :
    s.execution.wanted = lastRequest cs :=
  (wanted_performAll h).trans Option.or_none

/-- Before the code is run there is no path. -/
theorem path_before {s s' : Scene β} {cs : List Command} {rs : List Reply}
    (h : s.performAll cs = .ok (rs, s')) (hs : ¬ s'.execution.phase.Past) :
    ¬ s.execution.phase.Past ∧ s'.execution.path = s.execution.path := by
  induction cs generalizing s rs with
  | nil =>
    cases h
    exact ⟨hs, rfl⟩
  | cons c cs ih =>
    obtain ⟨r, s₁, rs₁, hc, hcs⟩ := performAll_cons h
    obtain ⟨hs₁, hp₁⟩ := ih hcs
    refine ⟨fun hx => hs₁ ((Follows.perform hc).moved.past hx), hp₁.trans ?_⟩
    cases recorded_perform hc with
    | kept _ hk => exact hk.path
    | asked _ hp => exact hp
    | ran _ _ _ hpast => exact absurd hpast hs₁

/-- Once the code was run the path stays. -/
theorem path_after {s s' : Scene β} {cs : List Command} {rs : List Reply}
    (h : s.performAll cs = .ok (rs, s')) (hs : s.execution.phase.Past) :
    s'.execution.path = s.execution.path := by
  induction cs generalizing s rs with
  | nil =>
    cases h
    rfl
  | cons c cs ih =>
    obtain ⟨r, s₁, rs₁, hc, hcs⟩ := performAll_cons h
    refine (ih hcs ((Follows.perform hc).moved.past hs)).trans ?_
    cases recorded_perform hc with
    | kept _ hk => exact hk.path
    | asked _ hp => exact hp
    | ran hx _ _ _ =>
      rw [hx] at hs
      exact hs.elim

/-- What is on the path was recorded by a run. -/
theorem exists_run_of_path_ne {s s' : Scene β} {cs : List Command} {rs : List Reply}
    (h : s.performAll cs = .ok (rs, s')) (hp : s'.execution.path ≠ s.execution.path) :
    ∃ cs₁ observer cs₂ rs₁ s₁ a p, cs = cs₁ ++ .run observer :: cs₂ ∧
      s.performAll cs₁ = .ok (rs₁, s₁) ∧ s₁.execution.phase = .awaiting a p ∧
      s₁.execution.wanted = some true := by
  induction cs generalizing s rs with
  | nil =>
    cases h
    exact absurd rfl hp
  | cons c cs ih =>
    obtain ⟨r, s₁, rs₁, hc, hcs⟩ := performAll_cons h
    -- either a later command added to the path, or this one did
    by_cases hp₁ : s'.execution.path = s₁.execution.path
    · rw [hp₁] at hp
      cases recorded_perform hc with
      | kept _ hk => exact absurd hk.path hp
      | asked _ hk => exact absurd hk hp
      | @ran observer a p hx _ hk _ =>
        refine ⟨[], observer, cs, [], s, a, p, rfl, rfl, hx, ?_⟩
        apply Classical.byContradiction
        intro hw
        rw [hk, if_neg hw] at hp
        exact hp (List.append_nil _)
    · obtain ⟨cs₁, observer, cs₂, rs₂, s₂, a, p, rfl, hcs₁, hx, hw⟩ := ih hcs hp₁
      refine ⟨c :: cs₁, observer, cs₂, c.reported r ++ rs₂, s₂, a, p, rfl, ?_, hx, hw⟩
      exact bind_eq_ok.mpr ⟨(r, s₁), hc, bind_eq_ok.mpr ⟨(rs₂, s₂), hcs₁, rfl⟩⟩

/-- The path before finalization, if the code was run in the meantime. -/
theorem path_run {s s₁ s₂ s₃ : Scene β} (hs : s.execution.path = []) {cs₁ cs₂ : List Command}
    {observer : Observer} {a : Option Accepted} {p : Pending} {rs₁ rs₂ : List Reply} {r : Reply}
    (h₁ : s.performAll cs₁ = .ok (rs₁, s₁)) (hx : s₁.execution.phase = .awaiting a p)
    (hrun : s₁.perform (.run observer) = .ok (r, s₂))
    (h₂ : s₂.performAll cs₂ = .ok (rs₂, s₃)) :
    s₃.execution.path = (if s₁.execution.wanted = some true then
      (s₂.world.diary.since s₁.world.diary.size).steps else []).map Step.onPath := by
  have hwait : ¬ s₁.execution.phase.Past := by
    rw [hx]
    exact not_false
  obtain ⟨phase, hpast, rfl⟩ := perform_run hx hrun
  rw [path_after h₂ hpast, (path_before h₁ hwait).2, hs, List.nil_append]

theorem summary_finalize {x x' : Execution} {w w' : World β}
    (h : x.finalize w = .ok (.ok (), x', w')) :
    ∃ a o refunded, x'.summary = x.wanted.map (x.summarize a o refunded) := by
  by_cases hx : ∃ a o, x.phase = .executed (some a) o
  · obtain ⟨a, o, hx⟩ := hx
    obtain ⟨o', refunded, -, -, hc⟩ := finalize_eq_conclude hx h
    refine ⟨a, o', refunded, ?_⟩
    rw [← x.summary_conclude a o' refunded w, hc]
  · unfold finalize at h
    split at h
    · next a o hx' => exact absurd ⟨a, o, hx'⟩ hx
    · cases h

/-- A summary shows the path so far if it is asked for then. -/
theorem path_of_finalize {s s' : Scene β} (h : s.perform .finalize = .ok (.ok, s')) :
    s'.execution.summary.isSome = s.execution.wanted.isSome ∧
      ∀ t ∈ s'.execution.summary,
        t.path = if s.execution.wanted = some true then s.execution.path else [] := by
  obtain ⟨done, x, w, hf, hdone, rfl⟩ := finalize_of_perform h
  cases done with
  | error e => cases hdone
  | ok _ =>
    obtain ⟨a, o, refunded, hs⟩ := summary_finalize hf
    refine ⟨by rw [hs, Option.isSome_map], ?_⟩
    intro t ht
    rw [hs] at ht
    obtain ⟨b, hb, rfl⟩ := Option.map_eq_some_iff.mp ht
    rw [hb]
    cases b <;> rfl

/-- A narrating observer is told the instructions that any other run performs. -/
theorem narrated_run {s s₁ s₂ : Scene β} {a : Option Accepted} {p : Pending}
    {observer : Observer} {r₁ r₂ : Reply} (hx : s.execution.phase = .awaiting a p)
    (h₁ : s.perform (.run observer) = .ok (r₁, s₁))
    (h₂ : s.perform (.run .narrating) = .ok (r₂, s₂)) :
    (s₂.world.since s.world).filterMap Entry.narrated? =
      (s₁.world.diary.since s.world.diary.size).steps := by
  let m := s.execution.machine
  have ht := (m.concur_run observer .narrating (.refl s.world) s.execution.depth p).world
  obtain ⟨es, hw⟩ := m.run_enters observer s.execution.depth p s.world
  obtain ⟨es', hw', hn⟩ := m.narrates_run s.execution.depth p s.world
  obtain ⟨_, -, rfl⟩ := perform_run hx h₁
  obtain ⟨_, -, rfl⟩ := perform_run hx h₂
  rw [hw'.since_eq, hn, ht.steps_eq hw hw', ← hw.since_eq]
  rfl

/-- However a run is observed and summaries are asked for, the replies, the execution, the
ledger and the diary are the same but for summaries, the path and remarks. The path that a
summary shows is all that was performed, in order, if it was asked for last both before the
run and before finalization, and else empty; an observer is told the same instructions. Nor
is there a path where no code was run. -/
theorem observation_does_not_interfere :
    (∀ (s : Scene β) (cs cs' : List Command), Command.Alike cs cs' →
      Together TwinRow (s.performAll cs) (s.performAll cs')) ∧
    (∀ (m : Machine) (depth : Nat) (parent : Substate) (w : World β) (cs₁ cs₂ : List Command)
      (observer : Observer) (a : Option Accepted) (p : Pending) (rs₁ rs₂ : List Reply)
      (r : Reply) (s₁ s₂ s₃ s₄ : Scene β),
      (⟨.new m depth, parent, w⟩ : Scene β).performAll cs₁ = .ok (rs₁, s₁) →
      s₁.execution.phase = .awaiting a p → s₁.perform (.run observer) = .ok (r, s₂) →
      s₂.performAll cs₂ = .ok (rs₂, s₃) → s₃.perform .finalize = .ok (.ok, s₄) →
      let steps := (s₂.world.diary.since s₁.world.diary.size).steps
      (s₄.execution.summary.isSome = (lastRequest (cs₁ ++ cs₂)).isSome) ∧
      (∀ t ∈ s₄.execution.summary, t.path =
        if lastRequest cs₁ = some true ∧ lastRequest (cs₁ ++ cs₂) = some true
        then steps.map Step.onPath else []) ∧
      ∀ r' s', s₁.perform (.run .narrating) = .ok (r', s') →
        (s'.world.since s₁.world).filterMap Entry.narrated? = steps) ∧
    ∀ (m : Machine) (depth : Nat) (parent : Substate) (w : World β) (cs : List Command)
      (rs : List Reply) (s s' : Scene β),
      (⟨.new m depth, parent, w⟩ : Scene β).performAll cs = .ok (rs, s) →
      s.perform .finalize = .ok (.ok, s') → ∀ t ∈ s'.execution.summary, t.path ≠ [] →
      lastRequest cs = some true ∧
      ∃ cs₁ observer cs₂ rs₁ s₁ a p, cs = cs₁ ++ .run observer :: cs₂ ∧
        (⟨.new m depth, parent, w⟩ : Scene β).performAll cs₁ = .ok (rs₁, s₁) ∧
        s₁.execution.phase = .awaiting a p ∧ lastRequest cs₁ = some true := by
  refine ⟨fun s cs cs' h => twin_performAll ⟨.refl _, rfl, .refl _⟩ h, ?_, ?_⟩
  · intro m depth parent w cs₁ cs₂ observer a p rs₁ rs₂ r s₁ s₂ s₃ s₄ h₁ hx hrun h₂ hfin steps
    have hwanted₁ := wanted_of_new h₁
    have hwanted₂ : s₂.execution.wanted = lastRequest cs₁ :=
      (wanted_perform hrun).trans hwanted₁
    have hwanted₃ : s₃.execution.wanted = lastRequest (cs₁ ++ cs₂) := by
      rw [wanted_performAll h₂, hwanted₂, lastRequest_append]
    have hpath₃ := path_run (s := ⟨.new m depth, parent, w⟩) rfl h₁ hx hrun h₂
    obtain ⟨hsome, hpath⟩ := path_of_finalize hfin
    refine ⟨by rw [hsome, hwanted₃], ?_, fun r' s' h => narrated_run hx hrun h⟩
    intro t ht
    rw [hpath t ht, hpath₃, hwanted₁, hwanted₃]
    by_cases hfirst : lastRequest cs₁ = some true <;>
      by_cases hlast : lastRequest (cs₁ ++ cs₂) = some true <;> simp [hfirst, hlast, steps]
  · intro m depth parent w cs rs s s' h hfin t ht hne
    rw [(path_of_finalize hfin).2 t ht] at hne
    obtain ⟨hlast, hne⟩ := ite_ne_right_iff.mp hne
    obtain ⟨cs₁, observer, cs₂, rs₁, s₁, a, p, hcs, h₁, hx, hw⟩ := exists_run_of_path_ne h hne
    rw [wanted_of_new h] at hlast
    rw [wanted_of_new h₁] at hw
    exact ⟨hlast, cs₁, observer, cs₂, rs₁, s₁, a, p, hcs, h₁, hx, hw⟩

end Execution

/-- Code that performs an instruction, calls itself once, and performs another. -/
def Interpreter.stepping : Interpreter := fun v =>
  .step ⟨0, 1, v.gas, 3⟩ (if v.depth = 0
    then .call .toSelf fun _ => .step ⟨1, 2, v.gas, 3⟩ (.halt ⟨v.gas, [], none⟩)
    else .halt ⟨v.gas, [], none⟩)

def Execution.Scene.stepping : Execution.Scene State := ⟨.new (.plain .stepping) 0, ∅, .plain⟩

open Execution in
theorem path_of_stepping_code :
    ∃ (rs : List Reply) (r : Reply) (s₁ s₂ s₃ : Scene State) (a : Accepted) (p : Pending)
      (t : Summary),
      Scene.stepping.performAll [.requestSummary true, .accept .toSelf, .execute] =
        .ok (rs, s₁) ∧ s₁.execution.phase = .awaiting (some a) p ∧
      s₁.perform (.run .silent) = .ok (r, s₂) ∧ s₂.perform .finalize = .ok (.ok, s₃) ∧
      s₃.execution.summary = some t ∧
      t.path = [⟨0, 0, 1, 9000⟩, ⟨1, 0, 1, 0⟩, ⟨0, 1, 2, 9000⟩] ∧
      Together TwinRow
        (Scene.stepping.performAll
          [.requestSummary true, .accept .toSelf, .execute, .run .silent, .finalize])
        (Scene.stepping.performAll [.accept .toSelf, .execute, .run .narrating, .finalize]) := by
  obtain ⟨halike, hpath, -⟩ := observation_does_not_interfere (β := State)
  obtain ⟨rs, r, s₁, s₂, s₃, a, p, h₁, hx, hrun, hfin, hsteps⟩ :
      ∃ rs r s₁ s₂ s₃ a p,
        Scene.stepping.performAll [.requestSummary true, .accept .toSelf, .execute] =
          .ok (rs, s₁) ∧ s₁.execution.phase = .awaiting (some a) p ∧
        s₁.perform (.run .silent) = .ok (r, s₂) ∧ s₂.perform .finalize = .ok (.ok, s₃) ∧
        (s₂.world.diary.since s₁.world.diary.size).steps.map Step.onPath =
          [⟨0, 0, 1, 9000⟩, ⟨1, 0, 1, 0⟩, ⟨0, 1, 2, 9000⟩] :=
    ⟨_, _, _, _, _, _, _, rfl, rfl, rfl, rfl, by decide +kernel⟩
  obtain ⟨hsome, hp, -⟩ := hpath (.plain .stepping) 0 ∅ .plain _ [] .silent (some a) p _ _ _ _ _ _ _
    h₁ hx hrun rfl hfin
  obtain ⟨t, ht⟩ := Option.isSome_iff_exists.mp hsome
  have hpath : t.path = _ := hp t ht
  rw [if_pos ⟨rfl, rfl⟩] at hpath
  refine ⟨rs, r, s₁, s₂, s₃, a, p, t, h₁, hx, hrun, hfin, ht, hpath.trans hsteps, ?_⟩
  exact halike _ _ _ (.left true (.cons (.same _) (.cons (.same _)
    (.cons (.run .silent .narrating) (.cons (.same _) .nil)))))

end Transact
