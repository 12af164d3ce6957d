import Transact.Proofs.Messages
import Transact.Proofs.WholeStates

/-!
What is not read does not matter. Ledgers that stand for the same whole states answer the
same, and what is done to both keeps them so. Main statements: `Machine.alike_begin` and
`Machine.alike_run`, that messages on such ledgers begin and end the same way.
-/

namespace Transact

namespace Ledger

variable {β γ : Type} [Store β] [Store γ]

theorem wholes_setBalance (l : Ledger β) (a : Address) (v : Quantity) :
    (l.setBalance a v).wholes = { l.wholes with top := l.whole.setBalance a v } :=
  congrArg (fun s => (⟨s, l.wholes.below⟩ : WholeStates)) (whole_setBalance l a v)

/-- The two answer the same, now and whichever of their checkpoints are reverted. -/
def Alike (l : Ledger β) (l' : Ledger γ) : Prop := l.wholes = l'.wholes

/-- Both fail the same way, or both succeed alike. -/
inductive AlikeResult : Except Exception (Ledger β) → Except Exception (Ledger γ) → Prop
  | error (e : Exception) : AlikeResult (.error e) (.error e)
  | ok {l : Ledger β} {l' : Ledger γ} (h : l.Alike l') : AlikeResult (.ok l) (.ok l')

namespace Alike

variable {l : Ledger β} {l' : Ledger γ} (h : l.Alike l') (a : Address)
include h

theorem whole_eq : l.whole = l'.whole := congrArg WholeStates.top h

theorem balance_eq : l.balance a = l'.balance a := congrArg (·.balance a) h.whole_eq

theorem nonce_eq : l.nonce a = l'.nonce a := congrArg (·.nonce a) h.whole_eq

theorem code_eq : l.code a = l'.code a := congrArg (·.code a) h.whole_eq

theorem storage_eq (i : Word) : l.storage a i = l'.storage a i :=
  congrArg (·.storage a i) h.whole_eq

theorem present_eq : l.present a = l'.present a := congrArg (·.present a) h.whole_eq

theorem openCount_eq : l.openCount = l'.openCount := by
  have hbelow := congrArg (fun s : WholeStates => s.below.length) h
  unfold wholes at hbelow
  dsimp only at hbelow
  rwa [length_wholesOf, length_wholesOf] at hbelow

/-- Every operation is answered the same and keeps the two alike. -/
theorem perform (op : Operation) :
    (l.perform op).1 = (l'.perform op).1 ∧ (l.perform op).2.Alike (l'.perform op).2 := by
  have hp := l.wholes_perform op
  have hw : l.wholes = l'.wholes := h
  rw [hw, l'.wholes_perform op] at hp
  exact ⟨(congrArg Prod.fst hp).symm, (congrArg Prod.snd hp).symm⟩

theorem setBalance (v : Quantity) : (l.setBalance a v).Alike (l'.setBalance a v) := by
  have hw : l.wholes = l'.wholes := h
  unfold Alike
  rw [wholes_setBalance, wholes_setBalance, hw, h.whole_eq]

theorem debit (v : Quantity) : AlikeResult (l.debit a v) (l'.debit a v) := by
  unfold Ledger.debit
  rw [h.balance_eq a]
  split
  · exact .error _
  · exact .ok (h.setBalance a _)

theorem transfer (target : Address) (v : Quantity) :
    AlikeResult (l.transfer a target v) (l'.transfer a target v) := by
  have hd := h.debit a v
  unfold Ledger.transfer
  cases hd' : l.debit a v <;> cases hd'' : l'.debit a v <;> rw [hd', hd''] at hd <;> cases hd
  · exact .error _
  · next hpaid => exact .ok (hpaid.perform (.credit target v)).2

end Alike

end Ledger

/-! Worlds, and what is done to them. -/

section Worlds

variable {β γ : Type} [Store β] [Store γ] (D : Diary → Diary → Prop)

/-- The same entry keeps diaries in the relation. -/
def Diary.Appending : Prop := ∀ {d d' : Diary}, D d d' → ∀ e, D (d.push e) (d'.push e)

/-- The ledgers are alike, and the diaries are in the relation `D`. -/
structure World.Alike (w : World β) (w' : World γ) : Prop where
  ledger : w.ledger.Alike w'.ledger
  diary : D w.diary w'.diary

/-- The same came out, and the worlds are alike. -/
structure Agree {α : Type} (r : α × World β) (r' : α × World γ) : Prop where
  value : r.1 = r'.1
  world : r.2.Alike D r'.2

/-- Messages are carried out alike. -/
def SendAlike (send : Message → World β → Ending × World β)
    (send' : Message → World γ → Ending × World γ) : Prop :=
  ∀ k w w', w.Alike D w' → Agree D (send k w) (send' k w')

variable {D} (hD : Diary.Appending D) {w : World β} {w' : World γ} (h : w.Alike D w')

namespace World.Alike

include h

/-- Whatever was done to the ledgers. -/
theorem on_ledger {l : Ledger β} {l' : Ledger γ} (hl : l.Alike l') :
    World.Alike D { w with ledger := l } { w' with ledger := l' } := ⟨hl, h.diary⟩

include hD

theorem write (e : Entry) : (w.write e).Alike D (w'.write e) := ⟨h.ledger, hD h.diary e⟩

theorem remark (r : Remark) : (w.remark r).Alike D (w'.remark r) := h.write hD (.remark r)

theorem event (e : Event) : (w.event e).Alike D (w'.event e) := h.write hD (.event e)

theorem remarks (rs : List Remark) : (w.remarks rs).Alike D (w'.remarks rs) := by
  unfold World.remarks
  induction rs generalizing w w' with
  | nil => exact h
  | cons r rs ih => exact ih (h.remark hD r)

end World.Alike

namespace Frame

variable (f : Frame)
include h

omit h in
theorem answer_eq {l : Ledger β} {l' : Ledger γ} (h : l.Alike l') (q : Query) :
    f.answer l q = f.answer l' q := by
  cases q with
  | balance a => exact h.balance_eq a
  | code a => exact h.code_eq a
  | present a => exact h.present_eq a
  | storage i => exact h.storage_eq f.context.address i
  | blockHash number => rfl

include hD

theorem alike_observe (i : Instruction) : (f.observe i w).Alike D (f.observe i w') :=
  (h.write hD _).remarks hD _

theorem alike_act (e : Effect) (s : Substate) : Agree D (f.act e s w) (f.act e s w') := by
  have hw := h.write hD (.act f.depth f.context.address e)
  cases e with
  | setStorage i v => exact ⟨rfl, hw.on_ledger (hw.ledger.perform (.setStorage _ i v)).2⟩
  | log topics data => exact ⟨rfl, hw⟩
  | refund amount => exact ⟨rfl, hw⟩
  | selfDestruct b =>
    refine ⟨rfl, ?_⟩
    unfold act selfDestruct
    dsimp only
    rw [hw.ledger.balance_eq f.context.address]
    have he := hw.event hD (.selfDestruct f.context.address b
      ((w'.write (.act f.depth f.context.address (.selfDestruct b))).ledger.balance
        f.context.address))
    exact he.on_ledger ((he.ledger.perform (.credit b _)).2.setBalance _ 0)

end Frame

end Worlds

/-! Programs. -/

section Programs

variable (D : Diary → Diary → Prop) (β γ : Type) [Store β] [Store γ]

/-- In every frame the programs halt the same way and leave alike worlds, if the messages
they send are carried out alike. -/
def Program.Alike (p p' : Program) : Prop :=
  ∀ (f : Frame) (send : Message → World β → Ending × World β)
    (send' : Message → World γ → Ending × World γ), SendAlike D send send' →
    ∀ (s : Substate) (w : World β) (w' : World γ), w.Alike D w' →
      (f.run send p s w).1 = (f.run send' p' s w').1 ∧
        Agree D (f.run send p s w).2 (f.run send' p' s w').2

variable {D β γ} (hD : Diary.Appending D)

namespace Program.Alike

theorem halt (h : Halt) : Program.Alike D β γ (.halt h) (.halt h) :=
  fun _ _ _ _ _ _ _ hw => ⟨rfl, rfl, hw⟩

theorem read {q : Query} {next next' : q.Answer → Program}
    (hn : ∀ a, (next a).Alike D β γ (next' a)) :
    Program.Alike D β γ (.read q next) (.read q next') := by
  intro f send send' hs s w w' hw
  rw [Frame.run, Frame.run, f.answer_eq hw.ledger q]
  exact hn _ f send send' hs s w w' hw

theorem direct {op : Ledger.Operation} {next next' : Ledger.Answer → Program}
    (hn : ∀ a, (next a).Alike D β γ (next' a)) :
    Program.Alike D β γ (.direct op next) (.direct op next') := by
  intro f send send' hs s w w' hw
  obtain ⟨ha, hl⟩ := hw.ledger.perform op
  rw [Frame.run, Frame.run]
  dsimp only
  rw [ha]
  exact hn _ f send send' hs s _ _ (hw.on_ledger hl)

/-- A note taken by the first program alone. -/
theorem note_left (hnote : ∀ {d d' : Diary}, D d d' → ∀ depth x, D (d.push (.note depth x)) d')
    (x : Sighting) {p p' : Program} (h : p.Alike D β γ p') :
    Program.Alike D β γ (.note x p) p' := fun f send send' hs s _ w' hw =>
  h f send send' hs s _ w' ⟨hw.ledger, hnote hw.diary f.depth x⟩

include hD

theorem step (i : Instruction) {p p' : Program} (h : p.Alike D β γ p') :
    Program.Alike D β γ (.step i p) (.step i p') := fun f send send' hs s _ _ hw =>
  h f send send' hs s _ _ (f.alike_observe hD hw i)

theorem note (x : Sighting) {p p' : Program} (h : p.Alike D β γ p') :
    Program.Alike D β γ (.note x p) (.note x p') := fun f send send' hs s _ _ hw =>
  h f send send' hs s _ _ (hw.write hD (.note f.depth x))

theorem act (e : Effect) {p p' : Program} (h : p.Alike D β γ p') :
    Program.Alike D β γ (.act e p) (.act e p') := by
  intro f send send' hs s w w' hw
  obtain ⟨hsub, hw'⟩ := f.alike_act hD hw e s
  rw [Frame.run, Frame.run]
  dsimp only
  rw [hsub]
  exact h f send send' hs _ _ _ hw'

theorem call (c : Call) {next next' : CallReport → Program}
    (hn : ∀ o, (next o).Alike D β γ (next' o)) :
    Program.Alike D β γ (.call c next) (.call c next') := by
  intro f send send' hs s w w' hw
  have hc := hs (.call c) w w' hw
  rw [Frame.run, Frame.run]
  rcases h : send (.call c) w with ⟨ending, w₁⟩
  rcases h' : send' (.call c) w' with ⟨ending', w₁'⟩
  rw [h, h'] at hc
  obtain ⟨rfl : ending = ending', hw₁⟩ := hc
  cases ending with
  | closed o => exact hn _ f send send' hs _ _ _ hw₁
  | uneven o => exact hn _ f send send' hs _ _ _ (hw₁.remark hD _)

theorem create (endowment gas : Quantity) (initCode : Bytes)
    {next next' : CreationReport → Program} (hn : ∀ o, (next o).Alike D β γ (next' o)) :
    Program.Alike D β γ (.create endowment gas initCode next)
      (.create endowment gas initCode next') := by
  intro f send send' hs s w w' hw
  have hbump : World.Alike D (w.edit (·.bumpNonce f.context.address))
      (w'.edit (·.bumpNonce f.context.address)) :=
    hw.on_ledger (hw.ledger.perform (.bumpNonce f.context.address)).2
  let message : Message := .create ⟨f.context.address, endowment, gas, initCode⟩
  have hc := hs message _ _ hbump
  rw [Frame.run, Frame.run]
  rcases h : send message (w.edit (·.bumpNonce f.context.address)) with ⟨ending, w₁⟩
  rcases h' : send' message (w'.edit (·.bumpNonce f.context.address)) with ⟨ending', w₁'⟩
  rw [h, h'] at hc
  obtain ⟨rfl : ending = ending', hw₁⟩ := hc
  cases ending with
  | closed o => exact hn _ f send send' hs _ _ _ hw₁
  | uneven o => exact hn _ f send send' hs _ _ _ (hw₁.remark hD _)

theorem refl (p : Program) : p.Alike D β γ p := by
  induction p with
  | halt h => exact .halt h
  | step i next ih => exact .step hD i ih
  | read q next ih => exact .read ih
  | act e next ih => exact .act hD e ih
  | call c next ih => exact .call hD c ih
  | create endowment gas initCode next ih => exact .create hD endowment gas initCode ih
  | note x next ih => exact .note hD x ih
  | direct op next ih => exact .direct ih

end Program.Alike

end Programs

/-! Messages. -/

section Messages

variable {D : Diary → Diary → Prop} {β γ : Type} [Store β] [Store γ]

namespace Message

variable {l : Ledger β} {l' : Ledger γ} (message : Message) (h : l.Alike l')
include h

theorem context_eq (terms : Terms) : message.context terms l = message.context terms l' := by
  cases message with
  | call c => rfl
  | create c =>
    have htarget : l.creationTarget c.creator = l'.creationTarget c.creator := by
      unfold Ledger.creationTarget
      rw [h.nonce_eq]
    rw [context, context, htarget]

theorem code_eq : message.code l = message.code l' := by
  cases message with
  | call c => exact h.code_eq c.codeAddress
  | create c => rfl

end Message

namespace Machine

variable (m : Machine)

/-- The machine with another interpreter. -/
def under (i : Interpreter) : Machine := { m with interpreter := i }

theorem alike_openFor (message : Message) (target : Address) {l : Ledger β} {l' : Ledger γ}
    (h : l.Alike l') : (m.openFor message target l).Alike (m.openFor message target l') := by
  have hpush := (h.perform .push).2
  have hcleared := ((hpush.perform (.wipeStorage target)).2.perform (.setCode target [])).2
  unfold openFor prepare
  split
  · dsimp only
    split
    · exact (hcleared.perform (.setNonce target 1)).2
    · exact hcleared
  · exact hpush

theorem alike_paid (terms : Terms) (message : Message) {l : Ledger β} {l' : Ledger γ}
    (h : l.Alike l') : Ledger.AlikeResult (m.paid terms message l) (m.paid terms message l') := by
  unfold paid Ledger.pay
  rw [message.context_eq h terms]
  exact (m.alike_openFor message _ h).transfer _ _ _

variable (hD : Diary.Appending D) {w : World β} {w' : World γ} (h : w.Alike D w')
include hD h

omit m in
theorem alike_refuse (depth : Nat) (terms : Terms) (message : Message) :
    Agree D (refuse depth terms message w) (refuse depth terms message w') := by
  refine ⟨rfl, ?_⟩
  unfold refuse
  dsimp only
  rw [message.context_eq h.ledger terms]
  generalize message.context terms w'.ledger = c
  have hw := h.event hD (message.event depth c)
  refine World.Alike.remark hD ?_ _
  split
  · have hp := hw.ledger.transfer c.caller c.address c.value
    unfold Ledger.pay
    generalize (w.event (message.event depth c)).ledger.transfer _ _ _ = r at hp ⊢
    generalize (w'.event (message.event depth c)).ledger.transfer _ _ _ = r' at hp ⊢
    cases hp with
    | error e => exact hw.remark hD _
    | ok hl => exact hw.on_ledger hl
  · exact hw

theorem alike_receive (depth : Nat) (terms : Terms) (message : Message) :
    Agree D (m.receive depth terms message w) (m.receive depth terms message w') := by
  rw [receive_eq, receive_eq, message.context_eq h.ledger terms]
  dsimp only
  have hv : World.Alike D (w.announce depth (message.context terms w'.ledger) message)
      (w'.announce depth (message.context terms w'.ledger) message) :=
    (h.event hD _).remark hD _
  have hp := m.alike_paid terms message h.ledger
  generalize m.paid terms message w.ledger = r at hp ⊢
  generalize m.paid terms message w'.ledger = r' at hp ⊢
  cases hp with
  | error e =>
    exact ⟨rfl, hv.on_ledger ((m.alike_openFor message _ h.ledger).perform (.pop .revert)).2⟩
  | ok hl =>
    dsimp only
    unfold Message.pending
    rw [message.code_eq hl]
    split
    · exact ⟨rfl, hv.on_ledger (hl.perform (.pop .commit)).2⟩
    · exact ⟨rfl, hv.on_ledger hl⟩

theorem alike_begin (depth : Nat) (terms : Terms) (message : Message) :
    Agree D (m.begin depth terms message w) (m.begin depth terms message w') := by
  unfold begin
  split
  · obtain ⟨hvalue, hworld⟩ := alike_refuse hD h depth terms message
    exact ⟨congrArg Admission.done hvalue, hworld⟩
  · exact m.alike_receive hD h depth terms message

theorem alike_deposit (target : Address) (halt : Halt) :
    (m.deposit target halt w).1 = (m.deposit target halt w').1 ∧
      Agree D (m.deposit target halt w).2 (m.deposit target halt w').2 := by
  unfold deposit
  dsimp only
  split
  · exact ⟨rfl, rfl, h.remark hD _⟩
  · exact ⟨rfl, rfl, h.on_ledger (h.ledger.perform (.setCode target halt.output)).2⟩

omit m in
theorem alike_close (depth : Nat) (p : Pending) (halt : Halt) (deposit : Deposit)
    (s : Substate) :
    Agree D (close depth p halt deposit s w) (close depth p halt deposit s w') := by
  unfold close
  rw [h.ledger.openCount_eq]
  split
  · exact ⟨rfl, h⟩
  · have hpop := fun v => h.on_ledger (h.ledger.perform (.pop v)).2
    cases halt.exception with
    | none => exact ⟨rfl, ((hpop .commit).remark hD _).event hD _⟩
    | some e => exact ⟨rfl, ((hpop .revert).remark hD _).event hD _⟩

theorem alike_conclude (depth : Nat) (p : Pending) (halt : Halt) (s : Substate) :
    Agree D (m.conclude depth p halt s w) (m.conclude depth p halt s w') := by
  unfold conclude
  split
  · obtain ⟨hh, hd, hw⟩ := m.alike_deposit hD h p.context.address halt
    dsimp only
    rw [hh, hd]
    exact alike_close hD hw depth p _ _ s
  · exact alike_close hD h depth p halt .none s

omit m hD h in
/-- A message that begins alike and whose code runs alike. -/
theorem alike_begun {run : Pending → World β → Ending × World β}
    {run' : Pending → World γ → Ending × World γ}
    (hrun : ∀ p w w', w.Alike D w' → Agree D (run p w) (run' p w'))
    (r : Admission × World β) (r' : Admission × World γ) :
    Agree D r r' → Agree D
      (match r with
        | (.done o, w) => (.closed o, w)
        | (.pending p, w) => run p w : Ending × World β)
      (match r' with
        | (.done o, w) => (.closed o, w)
        | (.pending p, w) => run' p w : Ending × World γ) := by
  intro hr
  obtain ⟨a, w⟩ := r
  obtain ⟨a', w'⟩ := r'
  obtain ⟨rfl : a = a', hw⟩ := hr
  cases a with
  | done o => exact ⟨rfl, hw⟩
  | pending p => exact hrun p w w' hw

/-! Another interpreter may run the code, if its programs run alike. -/

variable {i : Interpreter} (hi : ∀ v, (m.interpreter v).Alike D β γ (i v)) (observer : Observer)
include hi

theorem alike_perform (depth : Nat) (p : Pending) {send : Message → World β → Ending × World β}
    {send' : Message → World γ → Ending × World γ} (hs : SendAlike D send send') :
    Agree D (m.perform observer depth p send w)
      ((m.under i).perform observer depth p send' w') := by
  let v : Invocation := ⟨depth, p.context, m.block.toHeader, p.gas, p.code, p.input⟩
  let f := m.frame depth p.context observer
  let r := f.run send (m.interpreter v) ∅ (w.write (.enter v))
  let r' := f.run send' (i v) ∅ (w'.write (.enter v))
  obtain ⟨hh, hsub, hw⟩ : r.1 = r'.1 ∧ Agree D r.2 r'.2 :=
    hi v f send send' hs ∅ _ _ (h.write hD (.enter v))
  change Agree D (m.conclude depth p r.1 r.2.1 r.2.2) (m.conclude depth p r'.1 r'.2.1 r'.2.2)
  rw [hh, hsub]
  exact m.alike_conclude hD hw depth p r'.1 r'.2.1

omit h in
/-- By induction on the levels of messages that are left. -/
theorem alike_runLevels (levels depth : Nat) (p : Pending) {w : World β} {w' : World γ}
    (h : w.Alike D w') :
    Agree D (m.runLevels observer levels depth p w)
      ((m.under i).runLevels observer levels depth p w') := by
  induction levels generalizing depth p w w' with
  | zero =>
    refine m.alike_perform hD h hi observer depth p ?_
    intro message w w' h
    obtain ⟨hvalue, hworld⟩ := alike_refuse hD h (depth + 1) p.context.terms message
    exact ⟨congrArg Ending.closed hvalue, hworld⟩
  | succ levels ih =>
    refine m.alike_perform hD h hi observer depth p ?_
    intro message w w' h
    exact alike_begun (fun p _ _ h => ih (depth + 1) p h) _ _
      (m.alike_receive hD h (depth + 1) p.context.terms message)

/-- Code run on ledgers that are alike ends the same way and leaves them alike. -/
theorem alike_run (depth : Nat) (p : Pending) :
    Agree D (m.run observer depth p w)
      ((m.under i).run observer depth p w') :=
  m.alike_runLevels hD hi observer _ depth p h

end Machine

end Messages

end Transact
