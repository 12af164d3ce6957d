import Transact.Proofs.CallDepth

/-!
What running code sees of the transaction and the block. At every moment of a run
`Machine.Shares` says what the frames have in common and what a nested one gets; a source of
hashes is only asked within the window. Main statement: `frames_share_surroundings`.
-/

namespace Transact

/-- The window over the integers: it ends before the block and may begin before block zero. -/
theorem Block.hashFrom_eq (b : Block) (source : HashSource) (n : Quantity) :
    b.hashFrom source n =
      if (b.number.toNat : Int) - 256 ≤ n.toNat ∧ n.toNat < b.number.toNat then
        source (b.number.toNat - n.toNat - 1)
      else 0 := by
  unfold hashFrom offsetOf hashWindow
  dsimp only
  by_cases h : (b.number.toNat : Int) - 256 ≤ n.toNat ∧ n.toNat < b.number.toNat
  · rw [if_pos h, if_pos (by omega)]
    rfl
  · rw [if_neg h, if_neg (by omega)]
    rfl

/-- What the messages of each active invocation share, the innermost first. -/
def Activity.terms {β : Type} : Activity β → List Terms
  | running callers a _ _ => a.pending.context.terms :: callers.map (·.pending.context.terms)
  | ended callers _ _ => callers.map (·.pending.context.terms)

namespace Machine

variable {β : Type} [Store β] (m : Machine) (observer : Observer)

/-- What becomes of a message that `v` sent in the context `c`: it is over at once, or its
code is entered one level deeper. -/
inductive Descends (callers : List Caller) (v : Activation) (c : Context) : Activity β → Prop
  | over {o : Outcome} {w : World β} : Descends callers v c (.ended callers (.closed o) w)
  | entered {p : Pending} {w : World β} (hc : p.context = c) :
      Descends callers v c (.running callers ⟨v.depth + 1, p, ∅⟩
        (m.interpreter ⟨v.depth + 1, c, m.block.toHeader, p.gas, p.code, p.input⟩) w)

theorem descends_post (callers : List Caller) (v : Activation) (t : Terms) (k : Message)
    (w : World β) :
    m.Descends callers v (k.context t w.ledger) (m.post callers (v.depth + 1) t k w) := by
  unfold post
  rcases hb : m.begin (v.depth + 1) t k w with ⟨o | p, w'⟩
  · exact .over
  · rw [← (begin_eq_pending hb).2.context_of_pending]
    exact .entered rfl

theorem terms_post (callers : List Caller) {t : Terms}
    (h : ∀ s ∈ callers.map (·.pending.context.terms), s = t) (d : Nat) (k : Message)
    (w : World β) : ∀ s ∈ (m.post callers d t k w).terms, s = t := by
  unfold post
  rcases hb : m.begin d t k w with ⟨o | p, w'⟩
  · exact h
  · have hp : p.context.terms = t := by
      rw [(begin_eq_pending hb).2.context_of_pending, k.terms_context]
    exact List.forall_mem_cons.mpr ⟨hp, h⟩

/-- A nested message has the terms of the one it is nested in. -/
theorem terms_next {t : Terms} (a : Activity β) (h : ∀ s ∈ a.terms, s = t) :
    ∀ s ∈ (m.next observer a).terms, s = t := by
  cases a with
  | ended callers e w =>
    cases callers with
    | nil => exact h
    | cons c callers => cases e <;> exact h
  | running callers v p w =>
    have hv : v.pending.context.terms = t := h _ List.mem_cons_self
    cases p with
    | halt _ => exact (List.forall_mem_cons.mp h).2
    | call c k =>
      subst hv
      exact m.terms_post (⟨v, false, _⟩ :: callers) h _ _ _
    | create endowment gas initCode k =>
      subst hv
      exact m.terms_post (⟨v, true, _⟩ :: callers) h _ _ _
    | _ => exact h

/-- At one moment of a run whose outermost frame is at depth `d` and has the terms `t`: each
frame is one level deeper than the one it is nested in, all of them have these terms, and so
do the answers and the nested messages that the running one gets. -/
structure Shares (d : Nat) (t : Terms) (a : Activity β) : Prop where
  depths : Stacked d m.rules.callDepthLimit a.depths
  terms : ∀ s ∈ a.terms, s = t
  hash {callers v n k w} (ha : a = .running callers v (.read (.blockHash n) k) w) :
    m.next observer a = .running callers v
      (k (if (m.block.number.toNat : Int) - 256 ≤ n.toNat ∧ n.toNat < m.block.number.toNat then
          m.hashes (m.block.number.toNat - n.toNat - 1)
        else 0)) w
  call {callers v c k w} (ha : a = .running callers v (.call c k) w) :
    m.Descends (⟨v, false, fun e => k e.ofCall⟩ :: callers) v
      ⟨c.receiver, c.sender, t.origin, c.value, t.gasPrice⟩ (m.next observer a)
  create {callers v endowment gas initCode k w}
    (ha : a = .running callers v (.create endowment gas initCode k) w) :
    m.Descends (⟨v, true, fun e => k e.ofCreation⟩ :: callers) v
      ⟨(w.ledger.bumpNonce v.pending.context.address).creationTarget v.pending.context.address,
        v.pending.context.address, t.origin, endowment, t.gasPrice⟩ (m.next observer a)

theorem shares_of_terms {d : Nat} {t : Terms} {a : Activity β}
    (hd : Stacked d m.rules.callDepthLimit a.depths) (ht : ∀ s ∈ a.terms, s = t) :
    m.Shares observer d t a where
  depths := hd
  terms := ht
  hash := by
    rintro callers v n k w rfl
    rw [← m.block.hashFrom_eq m.hashes n]
    rfl
  call := by
    rintro callers v c k w rfl
    have hv : v.pending.context.terms = t := ht _ List.mem_cons_self
    subst hv
    have hpost := m.descends_post (⟨v, false, fun e => k e.ofCall⟩ :: callers) v
      v.pending.context.terms (.call c) w
    exact hpost
  create := by
    rintro callers v endowment gas initCode k w rfl
    have hv : v.pending.context.terms = t := ht _ List.mem_cons_self
    subst hv
    have hpost := m.descends_post (⟨v, true, fun e => k e.ofCreation⟩ :: callers) v
      v.pending.context.terms (.create ⟨v.pending.context.address, endowment, gas, initCode⟩)
      (w.edit (·.bumpNonce v.pending.context.address))
    exact hpost

/-- Every moment of a run, by induction on the requests before it. -/
theorem shares_iterate {d : Nat} (hd : d ≤ m.rules.callDepthLimit) (p : Pending) (w : World β)
    (n : Nat) :
    m.Shares observer d p.context.terms ((m.next observer)^[n] (m.enter [] d p w)) := by
  have hterms : ∀ s ∈ ((m.next observer)^[n] (m.enter [] d p w)).terms,
      s = p.context.terms := by
    refine Leads.invariant (P := fun a => ∀ s ∈ a.terms, s = p.context.terms)
      (m.terms_next observer) ⟨n, rfl⟩ ?_
    intro s hs
    exact List.mem_singleton.mp hs
  exact m.shares_of_terms observer (m.stacked_iterate observer hd p w n) hterms

end Machine

/-! Two sources that agree within the window. -/

section Sources

variable {β : Type} [Store β]

/-- The machine looks up hashes in `source`. -/
def Machine.lookingUp (m : Machine) (source : HashSource) : Machine :=
  { m with hashes := source }

/-- The execution looks up hashes in `source`. -/
def Execution.lookingUp (x : Execution) (source : HashSource) : Execution :=
  { x with machine := x.machine.lookingUp source }

namespace Machine

variable {m : Machine} {source : HashSource} (hs : ∀ k < hashWindow, source k = m.hashes k)
include hs

/-- No offset outside of the window is looked up. -/
theorem answer_lookingUp (d : Nat) (c : Context) (observer : Observer) (l : Ledger β)
    (q : Query) :
    ((m.lookingUp source).frame d c observer).answer l q = (m.frame d c observer).answer l q := by
  cases q with
  | blockHash number =>
    change m.block.hashFrom source number = m.block.hashFrom m.hashes number
    unfold Block.hashFrom
    cases hoffset : m.block.offsetOf number with
    | none => rfl
    | some offset => exact hs offset (Block.offsetOf_lt hoffset)
  | _ => rfl

theorem run_frame_lookingUp (d : Nat) (c : Context) (observer : Observer)
    (send : Message → World β → Ending × World β) (p : Program) (s : Substate) (w : World β) :
    ((m.lookingUp source).frame d c observer).run send p s w =
      (m.frame d c observer).run send p s w := by
  induction p generalizing s w with
  | halt h => rfl
  | step i next ih => exact ih _ _
  | read q next ih =>
    rw [Frame.run, answer_lookingUp hs, Frame.run]
    exact ih _ _ _
  | act e next ih => exact ih _ _
  | note x next ih => exact ih _ _
  | direct op next ih => exact ih _ _ _
  | call k next ih =>
    rw [Frame.run, Frame.run]
    rcases send (.call k) w with ⟨o | o, w'⟩
    · exact ih _ _ _
    · exact ih _ _ _
  | create endowment gas initCode next ih =>
    have hcreator : ((m.lookingUp source).frame d c observer).context.address = c.address := rfl
    have hcreator' : (m.frame d c observer).context.address = c.address := rfl
    rw [Frame.run, Frame.run, hcreator, hcreator']
    rcases send (.create ⟨c.address, endowment, gas, initCode⟩)
      (w.edit (·.bumpNonce c.address)) with ⟨o | o, w'⟩
    · exact ih _ _ _
    · exact ih _ _ _

theorem run_lookingUp_of_send {d : Nat} (observer : Observer)
    (hsend : ∀ t k (w : World β), (m.lookingUp source).send observer (d + 1) t k w =
      m.send observer (d + 1) t k w) (p : Pending) (w : World β) :
    (m.lookingUp source).run observer d p w = m.run observer d p w := by
  have hplay : (m.lookingUp source).play observer d p w = m.play observer d p w := by
    have hnested : (m.lookingUp source).send (β := β) observer (d + 1) p.context.terms =
        m.send observer (d + 1) p.context.terms := by
      funext k w
      exact hsend _ k w
    unfold play runCode
    rw [hnested]
    exact run_frame_lookingUp hs _ _ _ _ _ _ _
  rw [run_eq_play, run_eq_play, hplay]
  rfl

theorem send_lookingUp (observer : Observer) (d : Nat) (t : Terms) (k : Message) (w : World β) :
    (m.lookingUp source).send observer d t k w = m.send observer d t k w := by
  induction d using m.depth_induction generalizing t k w with
  | beyond d hd =>
    rw [send_of_lt _ observer t k w hd]
    exact send_of_lt _ observer t k w hd
  | within d hd ih =>
    have hbegin : (m.lookingUp source).begin d t k w = m.begin d t k w := rfl
    unfold send
    rw [hbegin]
    rcases m.begin d t k w with ⟨o | p, w'⟩
    · rfl
    · exact run_lookingUp_of_send hs observer ih p w'

theorem run_lookingUp (observer : Observer) (d : Nat) (p : Pending) (w : World β) :
    (m.lookingUp source).run observer d p w = m.run observer d p w :=
  run_lookingUp_of_send hs observer (send_lookingUp hs observer (d + 1)) p w

end Machine

namespace Execution

variable (x : Execution) (source : HashSource)

theorem accept_lookingUp (t : Transaction) (w : World β) :
    (x.lookingUp source).accept t w =
      ((x.accept t w).1, (x.accept t w).2.1.lookingUp source, (x.accept t w).2.2) := by
  have hv : (x.lookingUp source).machine.validate w.ledger t = x.machine.validate w.ledger t := rfl
  have hx : (x.lookingUp source).phase = x.phase := rfl
  unfold accept
  rw [hv, hx]
  cases x.phase with
  | created => cases x.machine.validate w.ledger t <;> rfl
  | _ => rfl

theorem start_lookingUp (a : Option Accepted) (t : Terms) (k : Message) (w : World β) :
    (x.lookingUp source).start a t k w =
      ((x.start a t k w).1, (x.start a t k w).2.1.lookingUp source, (x.start a t k w).2.2) := by
  have hb : (x.lookingUp source).machine.begin (x.lookingUp source).depth t k w =
    x.machine.begin x.depth t k w := rfl
  unfold start
  rw [hb]
  rcases x.machine.begin x.depth t k w with ⟨o | p, w'⟩ <;> rfl

theorem execute_lookingUp (w : World β) :
    (x.lookingUp source).execute w =
      ((x.execute w).1, (x.execute w).2.1.lookingUp source, (x.execute w).2.2) := by
  have hx : (x.lookingUp source).phase = x.phase := rfl
  unfold execute
  rw [hx]
  cases x.phase with
  | accepted a =>
    dsimp only
    cases w.ledger.debit a.sender (a.price a.transaction.gasLimit) with
    | error e => rfl
    | ok l =>
      dsimp only
      rw [start_lookingUp]
  | _ => rfl

theorem takeUp_lookingUp (task : Task) (w : World β) :
    (x.lookingUp source).takeUp task w =
      ((x.takeUp task w).1, (x.takeUp task w).2.1.lookingUp source, (x.takeUp task w).2.2) := by
  cases task with
  | transaction t =>
    unfold takeUp
    dsimp only
    rw [accept_lookingUp]
    rcases x.accept t w with ⟨_ | _, x', w'⟩
    · rfl
    · exact execute_lookingUp x' source w'
  | message t k =>
    have hx : (x.lookingUp source).phase = x.phase := rfl
    unfold takeUp dispatch
    dsimp only
    rw [hx]
    cases x.phase with
    | created =>
      dsimp only
      rw [start_lookingUp]
    | _ => rfl

variable {x source}

theorem run_lookingUp (hs : ∀ k < hashWindow, source k = x.machine.hashes k)
    (observer : Observer) (w : World β) :
    (x.lookingUp source).run observer w =
      ((x.run observer w).1, (x.run observer w).2.1.lookingUp source,
        (x.run observer w).2.2) := by
  have hx : (x.lookingUp source).phase = x.phase := rfl
  have hrun : ∀ p, (x.lookingUp source).machine.run observer (x.lookingUp source).depth p w =
      x.machine.run observer x.depth p w :=
    fun p => Machine.run_lookingUp hs observer x.depth p w
  unfold run
  rw [hx]
  cases x.phase with
  | awaiting a p =>
    dsimp only
    rw [hrun]
    rcases x.machine.run observer x.depth p w with ⟨o | o, w'⟩ <;> rfl
  | _ => rfl

theorem machine_takeUp (x : Execution) (task : Task) (w : World β) :
    (x.takeUp task w).2.1.machine = x.machine := by
  unfold takeUp
  cases task with
  | transaction t =>
    have haccept := (Follows.accept x w t).machine
    dsimp only
    rcases h : x.accept t w with ⟨_ | _, x', w'⟩
    · rw [h] at haccept
      exact haccept
    · rw [h] at haccept
      exact (Follows.execute x' w').machine.trans haccept
  | message t k => exact (Follows.dispatch x w t k).machine

/-- A run does not tell sources apart that agree within the window. -/
theorem carryOut_lookingUp (hs : ∀ k < hashWindow, source k = x.machine.hashes k) (task : Task)
    (observer : Observer) (w : World β) :
    (x.lookingUp source).carryOut task observer w =
      ((x.carryOut task observer w).1, (x.carryOut task observer w).2.1.lookingUp source,
        (x.carryOut task observer w).2.2) := by
  have hm := x.machine_takeUp task w
  unfold carryOut
  rw [takeUp_lookingUp]
  rcases h : x.takeUp task w with ⟨_ | _ | _, x', w'⟩
  · rfl
  · rw [h] at hm
    have hs' : ∀ k < hashWindow, source k = x'.machine.hashes k := by
      rw [hm]
      exact hs
    exact run_lookingUp hs' observer w'
  · rfl

end Execution

end Sources

/-- What the messages of a task share: the origin and the gas price. -/
def Task.terms? : Task → Option Terms
  | .transaction t => t.sender.map fun sender => ⟨sender, t.gasPrice⟩
  | .message terms _ => some terms

namespace Execution

variable {β : Type} [Store β] {x x₁ : Execution} {w w₁ : World β}

/-- A task that is taken up and not done waits for code that has its terms. -/
theorem takeUp_eq_false {task : Task} (hx : x.phase = .created)
    (h : x.takeUp task w = (.ok false, x₁, w₁)) :
    ∃ a p, x₁ = { x with phase := .awaiting a p } ∧ task.terms? = some p.context.terms ∧
      x.depth ≤ x.machine.rules.callDepthLimit := by
  cases task with
  | message t k =>
    unfold takeUp dispatch at h
    rw [hx] at h
    dsimp only at h
    rcases hstart : x.start none t k w with ⟨done, x', w'⟩
    rw [hstart] at h
    cases h
    obtain ⟨p, rfl, ht, hd⟩ := start_eq_false hstart
    exact ⟨none, p, rfl, congrArg some ht.symm, hd⟩
  | transaction t =>
    unfold takeUp at h
    dsimp only at h
    rcases haccept : x.accept t w with ⟨e | _, x', w'⟩
    · rw [haccept] at h
      cases h
    · obtain ⟨a, hv, rfl, rfl⟩ := accept_eq_ok haccept
      obtain ⟨rfl, ha⟩ := Machine.admits_of_validate hv
      have hexecute := execute_of_admits (x := { x with phase := .accepted a }) rfl ha
      rw [haccept] at h
      obtain ⟨hdone, hx₁⟩ := Prod.mk.inj (hexecute.symm.trans h)
      obtain ⟨p, rfl, ht, hd⟩ := start_eq_false (Prod.ext (Except.ok.inj hdone) hx₁)
      refine ⟨some a, p, rfl, ?_, hd⟩
      unfold Task.terms?
      dsimp only
      rw [ha.sender, ht]
      rfl

end Execution

/-- Where a task leads to code that must run, this code is given the block, and every moment of
the run shares the terms of the task and the block. Hashes are looked up in the given source,
or in the block if none was given. A source that agrees with it below offset 256 makes no
difference. -/
theorem frames_share_surroundings {β : Type} [Store β] {x : Execution} (hx : x.phase = .created)
    {rules : Rules} {block : Block} {hashes : Option HashSource} {interpreter : Interpreter}
    (hm : x.machine = .ofBlock rules block hashes interpreter) (task : Task)
    (observer : Observer) (w : World β) :
    (∀ x₁ w₁, x.takeUp task w = (.ok false, x₁, w₁) →
      ∃ a p terms, x₁.phase = .awaiting a p ∧ task.terms? = some terms ∧ ∀ v : World β,
        (∃ v', x.machine.enter [] x.depth p v = .running [] ⟨x.depth, p, ∅⟩
          (interpreter ⟨x.depth, p.context, block.toHeader, p.gas, p.code, p.input⟩) v') ∧
        (∀ n, x.machine.Shares observer x.depth terms
          ((x.machine.next observer)^[n] (x.machine.enter [] x.depth p v))) ∧
        x.machine.Leads observer (x.machine.enter [] x.depth p v)
          (.ended [] (x.machine.run observer x.depth p v).1 (x₁.run observer v).2.2)) ∧
    ∀ source : HashSource, (∀ k < 256, source k = hashes.getD block.recentHashes.source k) →
      (x.lookingUp source).carryOut task observer w =
        ((x.carryOut task observer w).1, (x.carryOut task observer w).2.1.lookingUp source,
          (x.carryOut task observer w).2.2) := by
  constructor
  · intro x₁ w₁ h
    obtain ⟨a, p, rfl, ht, hd⟩ := Execution.takeUp_eq_false hx h
    refine ⟨a, p, _, rfl, ht, fun v => ⟨?_, x.machine.shares_iterate observer hd p v, ?_⟩⟩
    · rw [hm]
      exact ⟨_, rfl⟩
    · rw [Execution.world_run rfl]
      exact x.machine.leads_run observer x.depth p v
  · intro source hs
    refine Execution.carryOut_lookingUp ?_ task observer w
    rw [hm]
    exact hs

/-- Code that calls itself and, once nested, asks for the hash of block 7. -/
def Interpreter.recalling : Interpreter := fun v =>
  if v.depth = 0 then .call .toSelf fun _ => .halt ⟨v.gas, [], none⟩
  else .read (.blockHash 7) fun hash => .halt ⟨v.gas, [hash.toNat.toUInt8], none⟩

/-- The machine is at block 10 and has a source of its own. -/
def Machine.recalling : Machine :=
  .ofBlock .istanbul ⟨⟨10, 0, 0, 0, 100000⟩, 0, default⟩ (some fun k => .ofNat 256 (40 + k))
    .recalling

theorem nested_code_sees_third_last_hash :
    ∃ (p : Pending) (w : World State) (callers : List Caller) (v : Activation)
      (k : Word → Program) (w' : World State),
      ((Execution.new .recalling 0).takeUp (.transaction .toSelf) World.plain).1 = .ok false ∧
      (Machine.recalling.next .silent) (Machine.recalling.enter [] 0 p w) =
        .running callers v (.read (.blockHash 7) k) w' ∧
      v.depth = 1 ∧ v.pending.context.terms = ⟨7, 1⟩ ∧
      (Machine.recalling.next .silent) (.running callers v (.read (.blockHash 7) k) w') =
        .running callers v (k 42) w' := by
  let taken := (Execution.new .recalling 0).takeUp (.transaction .toSelf) World.plain
  have htaken : taken = (.ok false, taken.2.1, taken.2.2) := rfl
  obtain ⟨hruns, -⟩ := frames_share_surroundings (x := .new .recalling 0) rfl rfl
    (.transaction .toSelf) .silent World.plain
  obtain ⟨a, p, terms, hp, ht, hmoments⟩ := hruns _ _ htaken
  cases hp
  cases ht
  have hshares := (hmoments taken.2.2).2.1 1
  rw [Function.iterate_one] at hshares
  refine ⟨_, taken.2.2, _, _, _, _, rfl, rfl, rfl, hshares.terms _ List.mem_cons_self, ?_⟩
  exact hshares.hash rfl

end Transact
