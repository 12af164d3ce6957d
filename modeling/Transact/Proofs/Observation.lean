import Transact.Execution.Command
import Transact.Proofs.Invocations

/-!
Two runs of the same code under two observers. The worlds stay twins: their ledgers are
equal, and their diaries differ only in remarks. Main statements: `twin_iterate`, step by
step, and `concur_run`, from the beginning to the end.
-/

namespace Transact

def Entry.isRemark : Entry → Bool
  | .remark _ => true
  | _ => false

/-- All that happened, but for what was only said about it. -/
def Diary.unremarked (d : Diary) : List Entry := d.toList.filter fun e => !e.isRemark

namespace Diary

theorem unremarked_push (d : Diary) (e : Entry) :
    unremarked (d.push e) = d.unremarked ++ [e].filter fun e => !e.isRemark := by
  unfold unremarked
  rw [Array.toList_push, List.filter_append]

theorem unremarked_push_remark (d : Diary) (r : Remark) :
    unremarked (d.push (.remark r)) = d.unremarked :=
  (d.unremarked_push (.remark r)).trans (List.append_nil _)

end Diary

/-- Two worlds that differ in nothing but remarks. -/
structure World.Twin {β : Type} (w w' : World β) : Prop where
  ledger : w'.ledger = w.ledger
  diary : w'.diary.unremarked = w.diary.unremarked

/-- Two answers that are the same, in twin worlds. -/
structure Concur {α β : Type} (r r' : α × World β) : Prop where
  answer : r'.1 = r.1
  world : r.2.Twin r'.2

namespace World.Twin

variable {β : Type} {w w' : World β}

theorem refl (w : World β) : w.Twin w := ⟨rfl, rfl⟩

theorem symm (h : w.Twin w') : w'.Twin w := ⟨h.ledger.symm, h.diary.symm⟩

theorem write (h : w.Twin w') (e : Entry) : (w.write e).Twin (w'.write e) where
  ledger := h.ledger
  diary := by
    unfold World.write
    rw [Diary.unremarked_push, Diary.unremarked_push, h.diary]

theorem remark_left (h : w.Twin w') (r : Remark) : (w.remark r).Twin w' where
  ledger := h.ledger
  diary := h.diary.trans (w.diary.unremarked_push_remark r).symm

theorem remarks_left (h : w.Twin w') (rs : List Remark) : (w.remarks rs).Twin w' := by
  unfold World.remarks
  induction rs generalizing w with
  | nil => exact h
  | cons r rs ih => exact ih (h.remark_left r)

theorem remarks (h : w.Twin w') (rs rs' : List Remark) :
    (w.remarks rs).Twin (w'.remarks rs') :=
  ((h.remarks_left rs).symm.remarks_left rs').symm

theorem remark (h : w.Twin w') (r r' : Remark) : (w.remark r).Twin (w'.remark r') :=
  h.remarks [r] [r']

theorem edit (h : w.Twin w') (f : Ledger β → Ledger β) : (w.edit f).Twin (w'.edit f) where
  ledger := congrArg f h.ledger
  diary := h.diary

theorem withLedger (h : w.Twin w') (l : Ledger β) :
    ({ w with ledger := l } : World β).Twin { w' with ledger := l } := ⟨rfl, h.diary⟩

end World.Twin

/-! One message. -/

namespace Machine

variable {β : Type} (m : Machine)

theorem concur_deposit {w w' : World β} (hw : w.Twin w') (target : Address) (h : Halt) :
    Concur ((m.deposit target h w).1, (m.deposit target h w).2.2)
      ((m.deposit target h w').1, (m.deposit target h w').2.2) ∧
      (m.deposit target h w').2.1 = (m.deposit target h w).2.1 := by
  unfold deposit
  dsimp only
  split
  · exact ⟨⟨rfl, hw.remark _ _⟩, rfl⟩
  · exact ⟨⟨rfl, hw.edit (·.setCode target h.output)⟩, rfl⟩

theorem concur_close {w w' : World β} (hw : w.Twin w') (d : Nat) (p : Pending) (h : Halt)
    (dep : Deposit) (s : Substate) :
    Concur (close d p h dep s w) (close d p h dep s w') := by
  unfold close
  rw [hw.ledger]
  split
  · exact ⟨rfl, hw⟩
  · cases h.exception with
    | none => exact ⟨rfl, ((hw.edit _).remark _ _).write _⟩
    | some e => exact ⟨rfl, ((hw.edit _).remark _ _).write _⟩

theorem concur_conclude {w w' : World β} (hw : w.Twin w') (d : Nat) (p : Pending) (h : Halt)
    (s : Substate) : Concur (m.conclude d p h s w) (m.conclude d p h s w') := by
  unfold conclude
  split
  · obtain ⟨⟨hh, hw₁⟩, hd⟩ := m.concur_deposit hw p.context.address h
    dsimp only at hh hw₁ ⊢
    rw [hh, hd]
    exact concur_close hw₁ d p _ _ s
  · exact concur_close hw d p h .none s

variable [Store β]

theorem concur_refuse {w w' : World β} (hw : w.Twin w') (d : Nat) (t : Terms) (k : Message) :
    Concur (refuse d t k w) (refuse d t k w') := by
  have he := hw.write (.event (k.event d (k.context t w.ledger)))
  unfold refuse
  rw [hw.ledger]
  dsimp only
  split
  · have hp : (w'.event (k.event d (k.context t w.ledger))).ledger.pay (k.context t w.ledger) =
        (w.event (k.event d (k.context t w.ledger))).ledger.pay (k.context t w.ledger) :=
      congrArg (fun l => l.pay (k.context t w.ledger)) he.ledger
    rw [hp]
    split
    · exact ⟨rfl, (he.remark _ _).remark _ _⟩
    · exact ⟨rfl, (he.withLedger _).remark _ _⟩
  · exact ⟨rfl, he.remark _ _⟩

theorem concur_receive {w w' : World β} (hw : w.Twin w') (d : Nat) (t : Terms) (k : Message) :
    Concur (m.receive d t k w) (m.receive d t k w') := by
  have ha : (w.announce d (k.context t w.ledger) k).Twin
      (w'.announce d (k.context t w.ledger) k) := (hw.write _).remark _ _
  rw [receive_eq, receive_eq, hw.ledger]
  dsimp only
  split
  · exact ⟨rfl, ha.withLedger _⟩
  · split
    · exact ⟨rfl, ha.withLedger _⟩
    · exact ⟨rfl, ha.withLedger _⟩

theorem concur_begin {w w' : World β} (hw : w.Twin w') (d : Nat) (t : Terms) (k : Message) :
    Concur (m.begin d t k w) (m.begin d t k w') := by
  unfold begin
  split
  · obtain ⟨ha, hw⟩ := concur_refuse hw d t k
    exact ⟨congrArg Admission.done ha, hw⟩
  · exact m.concur_receive hw d t k

end Machine

/-! Running code. -/

/-- The same goes on in twin worlds. -/
inductive Activity.Twin {β : Type} : Activity β → Activity β → Prop
  | running {callers : List Caller} {a : Activation} {p : Program} {w w' : World β}
      (h : w.Twin w') : Twin (.running callers a p w) (.running callers a p w')
  | ended {callers : List Caller} {e : Ending} {w w' : World β} (h : w.Twin w') :
      Twin (.ended callers e w) (.ended callers e w')

theorem Activity.Twin.concur {β : Type} {callers callers' : List Caller} {e e' : Ending}
    {w w' : World β} (h : Twin (.ended callers e w) (.ended callers' e' w')) :
    Concur (e, w) (e', w') := by
  cases h with
  | ended hw => exact ⟨rfl, hw⟩

namespace Machine

variable {β : Type} (m : Machine) (o o' : Observer)

theorem twin_observe {w w' : World β} (hw : w.Twin w') (d : Nat) (c : Context)
    (i : Instruction) : ((m.frame d c o).observe i w).Twin ((m.frame d c o').observe i w') :=
  (hw.write _).remarks _ _

theorem twin_resume {w w' : World β} (hw : w.Twin w') (callers : List Caller) (e : Ending) :
    (resume callers e w).Twin (resume callers e w') := by
  cases callers with
  | nil => exact .ended hw
  | cons c callers =>
    cases e with
    | closed o => exact .running hw
    | uneven o => exact .running (hw.remark _ _)

variable [Store β]

theorem answer_eq {w w' : World β} (hw : w.Twin w') (d : Nat) (c : Context) (q : Query) :
    (m.frame d c o').answer w'.ledger q = (m.frame d c o).answer w.ledger q := by
  rw [hw.ledger]
  cases q <;> rfl

theorem concur_act {w w' : World β} (hw : w.Twin w') (d : Nat) (c : Context) (e : Effect)
    (s : Substate) : Concur ((m.frame d c o).act e s w) ((m.frame d c o').act e s w') := by
  have ha := hw.write (.act d c.address e)
  cases e with
  | setStorage i v => exact ⟨rfl, ha.edit (·.setStorage c.address i v)⟩
  | log topics data => exact ⟨rfl, ha⟩
  | refund amount => exact ⟨rfl, ha⟩
  | selfDestruct b =>
    refine ⟨rfl, ?_⟩
    have hb : w'.ledger.balance c.address = w.ledger.balance c.address := by rw [hw.ledger]
    have hgone := (ha.write (.event (.selfDestruct c.address b
      (w.ledger.balance c.address)))).edit fun l =>
        (l.credit b (w.ledger.balance c.address)).setBalance c.address 0
    unfold Frame.act Frame.selfDestruct
    dsimp only [frame, World.write]
    rw [hb]
    exact hgone

theorem twin_post {w w' : World β} (hw : w.Twin w') (callers : List Caller) (d : Nat)
    (t : Terms) (k : Message) : (m.post callers d t k w).Twin (m.post callers d t k w') := by
  obtain ⟨ha, hw₁⟩ := m.concur_begin hw d t k
  unfold post
  rcases hb : m.begin d t k w with ⟨o | p, w₁⟩
  all_goals
    rcases hb' : m.begin d t k w' with ⟨a', w₁'⟩
    rw [hb, hb'] at ha hw₁
    cases ha
  · exact .ended hw₁
  · exact .running (hw₁.write _)

/-- No request is answered or carried out differently for another observer. -/
theorem twin_next {a a' : Activity β} (h : a.Twin a') : (m.next o a).Twin (m.next o' a') := by
  cases h with
  | ended hw => exact twin_resume hw _ _
  | @running callers a p w w' hw =>
    cases p with
    | halt h =>
      obtain ⟨he, hw₁⟩ := m.concur_conclude hw a.depth a.pending h a.substate
      unfold next
      dsimp only
      rw [he]
      exact .ended hw₁
    | step i p => exact .running (m.twin_observe o o' hw _ _ i)
    | read q k =>
      unfold next
      dsimp only
      rw [m.answer_eq o o' hw]
      exact .running hw
    | act e p =>
      obtain ⟨hs, hw₁⟩ := m.concur_act o o' hw a.depth a.pending.context e a.substate
      unfold next
      dsimp only
      rw [hs]
      exact .running hw₁
    | call c k => exact m.twin_post hw _ _ _ _
    | create endowment gas initCode k => exact m.twin_post (hw.edit _) _ _ _ _
    | note s p => exact .running (hw.write _)
    | direct op k =>
      unfold next
      dsimp only
      rw [hw.ledger]
      exact .running (hw.withLedger _)

theorem twin_iterate {a a' : Activity β} (h : a.Twin a') (n : Nat) :
    ((m.next o)^[n] a).Twin ((m.next o')^[n] a') := by
  induction n with
  | zero => exact h
  | succ n ih =>
    rw [Function.iterate_succ_apply', Function.iterate_succ_apply']
    exact m.twin_next o o' ih

/-- Pending code ends in the same way, and the worlds stay twins. -/
theorem concur_run {w w' : World β} (hw : w.Twin w') (d : Nat) (p : Pending) :
    Concur (m.run o d p w) (m.run o' d p w') := by
  obtain ⟨n, hn⟩ := m.leads_run o d p w
  obtain ⟨n', hn'⟩ := m.leads_run o' d p w'
  have hstart : (m.enter [] d p w).Twin (m.enter [] d p w') := .running (hw.write _)
  -- the counts may differ, but by the larger one both runs have ended
  have hend := m.twin_iterate o o' hstart (max n n')
  rw [Leads.iterate_of_le m o hn (Nat.le_max_left n n'),
    Leads.iterate_of_le m o' hn' (Nat.le_max_right n n')] at hend
  exact hend.concur

end Machine

end Transact
