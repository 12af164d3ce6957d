import Transact.Proofs.Courses
import Transact.Proofs.Effects
import Transact.Proofs.Fees
import Transact.Proofs.Footprint
import Transact.Settlement.Lemmas

/-!
What becomes of condemned accounts. Finalization leaves nothing of them, whoever paid them
since and whatever was written to them before, and changes no other account but for the
fees. An account is spared if each time it self-destructed a frame around it failed. Main
statement: `Execution.condemned_accounts_go`.
-/

namespace Transact

open Std (ExtTreeMap ExtTreeSet)

/-! Deleted accounts. -/

/-- `c` deletes the account and writes nothing to it after that. -/
structure Changes.Erases (c : Changes) (a : Address) : Prop where
  deleted : a ∈ c.deleted
  untouched : a ∉ c.touched

namespace Changes

variable (c : Changes) (a b : Address)

/-- A deletion forgets what was written to its account. -/
theorem mem_touched_delete : b ∈ (c.delete a).touched ↔ a ≠ b ∧ b ∈ c.touched := by
  have hwords : ∀ i, (⟨b, i⟩ : Slot) ∈ (c.delete a).words ↔ a ≠ b ∧ (⟨b, i⟩ : Slot) ∈ c.words := by
    intro i
    simp only [delete, ExtTreeMap.mem_filter]
    by_cases h : a = b
    · simp [h]
    · simp [h, Ne.symm h]
  rw [mem_touched, mem_touched, exists_congr hwords, exists_and_left]
  simp [delete, and_or_left]

theorem erases_delete : (c.delete a).Erases a where
  deleted := ExtTreeSet.mem_insert_self
  untouched h := ((c.mem_touched_delete a a).mp h).1 rfl

variable {c a} in
theorem Erases.delete (h : c.Erases a) : (c.delete b).Erases a where
  deleted := ExtTreeSet.mem_insert.mpr (.inr h.deleted)
  untouched ht := h.untouched ((c.mem_touched_delete b a).mp ht).2

variable {c a} in
/-- Written into any accounts, it leaves none at `a`. -/
theorem Erases.not_mem_settle (h : c.Erases a) (s : State) (deleteEmpty : Bool) :
    a ∉ s.settle c deleteEmpty := by
  have hwrite : (s.write c)[a]? = none := by
    rw [s.getElem?_write, if_neg h.untouched, s.getElem?_clear, if_pos h.deleted]
  have hsettle : (s.settle c deleteEmpty)[a]? = none := by
    cases deleteEmpty with
    | false => exact hwrite
    | true =>
      rw [s.getElem?_settle_true, hwrite]
      exact ite_self _
  rw [ExtTreeMap.mem_iff_isSome_getElem?, hsettle]
  exact Bool.false_ne_true

end Changes

namespace Ledger

variable {β : Type} [Store β] {l : Ledger β} {a : Address}

/-- Nothing is left of the account. -/
structure Gone (l : Ledger β) (a : Address) : Prop where
  present : l.present a = false
  balance : l.balance a = 0
  nonce : l.nonce a = 0
  code : l.code a = []
  storage : ∀ i, l.storage a i = 0

/-- What the layers below hold of an erased account is not seen. -/
theorem gone_of_erases (h : l.top.Erases a) : l.Gone a := by
  have hd := h.deleted
  have hu := h.untouched
  rw [Changes.mem_touched, not_or, not_or, not_or, not_exists] at hu
  obtain ⟨hb, hn, hc, hw⟩ := hu
  refine ⟨?_, ?_, ?_, ?_, fun i => ?_⟩
  · simp [Ledger.present, layers, Changes.present?, hb, hn, hc, hd]
  · simp [Ledger.balance, layers, Changes.balance?, hb, hd]
  · simp [Ledger.nonce, layers, Changes.nonce?, hn, hd]
  · simp [Ledger.code, layers, Changes.code?, hc, hd]
  · simp [Ledger.storage, layers, Changes.storage?, hw i, hd]

omit [Store β] in
theorem erases_deleteAll {condemned : ExtTreeSet Address} (h : a ∈ condemned) :
    (condemned.foldl .delete l).top.Erases a := by
  obtain ⟨as, bs, hsplit⟩ := List.append_of_mem (ExtTreeSet.mem_toList.mpr h)
  rw [ExtTreeSet.foldl_eq_foldl_toList, hsplit, List.foldl_append, List.foldl_cons]
  exact foldl_delete_induction (P := fun l => l.top.Erases a) (fun _ b _ hl => hl.delete b)
    (Changes.erases_delete _ a)

end Ledger

/-! Failed self-destructions. -/

/-- A frame open at `depth` before `es`, or one around it from depth `top` on, ends with an
exception. -/
def Fails (top depth : Nat) (es : List Entry) : Prop :=
  ∃ j e, top ≤ j ∧ j ≤ depth ∧ nextExit j es = some (some e)

/-- Each time the account self-destructs a frame fails. -/
def Thwarted (top : Nat) (a : Address) : List Entry → Prop
  | [] => True
  | entry :: es =>
    (∀ depth b, entry.act? = some (depth, a, .selfDestruct b) → Fails top depth es) ∧
      Thwarted top a es

theorem not_endsWell_iff {top depth : Nat} {es : List Entry}
    (hs : ∀ j, top ≤ j → j ≤ depth → nextExit j es ≠ none) :
    ¬ EndsWell top depth es ↔ Fails top depth es := by
  rw [endsWell_iff]
  constructor
  · intro h
    simp only [not_forall] at h
    obtain ⟨j, ht, hd, hne⟩ := h
    obtain ⟨x, hx⟩ := Option.ne_none_iff_exists'.mp (hs j ht hd)
    cases x with
    | none => exact absurd hx hne
    | some e => exact ⟨j, e, ht, hd, hx⟩
  · rintro ⟨j, e, ht, hd, hx⟩ h
    cases hx.symm.trans (h j ht hd)

theorem mem_effective_cons {top depth : Nat} {entry : Entry} {x : Address} {e : Effect}
    (he : entry.act? = some (depth, x, e)) (es : List Entry) (act : Address × Effect) :
    act ∈ effective top (entry :: es) ↔
      EndsWell top depth es ∧ act = (x, e) ∨ act ∈ effective top es := by
  rw [effective_cons_act he]
  split
  · next hw => simp [hw]
  · next hw => simp [hw]

/-- What is thwarted does not count, and all else does. -/
theorem thwarted_iff {top : Nat} {a : Address} {es : List Entry} (hs : Settled top es) :
    Thwarted top a es ↔ ∀ b, (a, .selfDestruct b) ∉ effective top es := by
  induction es with
  | nil => simp [Thwarted, effective]
  | cons entry es ih =>
    have hi := ih hs.2
    unfold Thwarted
    cases he : entry.act? with
    | none =>
      rw [effective_cons_of_no_act he, ← hi]
      refine and_iff_right ?_
      intro depth b hx
      cases hx
    | some act =>
      obtain ⟨depth, x, e⟩ := act
      have hwell := not_endsWell_iff (hs.1 depth x e he)
      simp only [mem_effective_cons he, not_or, not_and, forall_and]
      refine and_congr ⟨?_, ?_⟩ hi
      · intro h b hw hact
        cases hact
        exact hwell.mpr (h depth b rfl) hw
      · intro h k b hx
        cases hx
        exact hwell.mp fun hw => h b hw rfl

namespace Execution

variable {β : Type} [Store β]

/-! The run. -/

section Run

variable {m : Machine} {depth : Nat} {w v : World β} {turns : List Turn}

theorem gathered_of_sends (hi : m.interpreter.Confined) {task : Task} {a : Option Accepted}
    {terms : Terms} {message : Message} {observer : Observer} {o : Outcome} {w₀ : World β}
    (h : Sends m w task a terms message w₀)
    (hs : m.send observer depth terms message w₀ = (.closed o, v)) : w.Gathered depth o v := by
  cases h with
  | transaction hv =>
    exact gathered_of_carried (x := .new m depth) hi
      (.transaction (Machine.admits_of_validate hv).2 hs)
  | message => exact gathered_of_carried (x := .new m depth) hi (.message hs)

/-- What was not handed over is what the message gathered. -/
theorem Scene.Course.gathered (hi : m.interpreter.Confined) {parent : Substate} {s : Scene β}
    (h : Scene.Course ⟨.new m depth, parent, w⟩ turns s) (hkept : (.handOver, .ok) ∉ turns)
    {a : Option Accepted} {o : Outcome} (hx : s.execution.phase = .executed a o) :
    w.Gathered depth o s.world := by
  induction h with
  | nil => cases hx
  | offer _ _ ih => exact ih hkept hx
  | @snoc turns t t' c r h hp ih =>
    rw [List.mem_append, not_or] at hkept
    obtain ⟨hm, hd, hs⟩ := h.stands hi
    have ha := Scene.acts_of_perform hp
    cases ha with
    | refused | excepted | requested | taken => exact ih hkept.1 hx
    | done hc hb =>
      cases hx
      obtain ⟨task, -, hsends⟩ := hs.begins hc true
      subst hm hd
      exact gathered_of_sends hi hsends (t.execution.machine.send_of_done .silent hb)
    | ran hphase hr =>
      cases hx
      rw [hphase] at hs
      obtain ⟨task, terms, message, w₀, -, hsends, hb⟩ := hs.of_awaiting
      subst hm hd
      exact gathered_of_sends hi hsends ((t.execution.machine.send_of_pending _ hb).trans hr)
    | handedOver => exact absurd (List.mem_singleton.mpr rfl) hkept.2
    | @finalized a o paid refunded _ _ =>
      obtain ⟨final, logs, hphase⟩ := t.execution.phase_conclude a paid refunded t.world
      cases hphase.symm.trans hx
    | _ => cases hx

end Run

/-! Finalization. -/

theorem executed_of_finalize {x x' : Execution} {w w' : World β}
    (h : x.finalize w = .ok (.ok (), x', w')) : ∃ a o, x.phase = .executed (some a) o := by
  unfold finalize at h
  split at h
  · next a o hx => exact ⟨a, o, hx⟩
  · cases h

theorem balance_payFees (m : Machine) (a : Accepted) (gas : Quantity) (l : Ledger β)
    (b : Address) : (payFees m a gas l).balance b =
      (l.balance b + if b = a.sender then a.price gas else 0) +
        if b = m.block.author then a.price (a.gasUsed gas) else 0 := by
  unfold payFees
  rw [Ledger.balance_credit_eq, Ledger.balance_credit_eq]

theorem present_payFees_iff (m : Machine) (a : Accepted) (gas : Quantity) (l : Ledger β)
    (b : Address) : (payFees m a gas l).present b = true ↔
      b = a.sender ∨ b = m.block.author ∨ l.present b = true := by
  unfold payFees Ledger.credit
  rw [Ledger.present_setBalance_iff, Ledger.present_setBalance_iff]
  exact or_left_comm

/-- What finalization does to the account `b`. -/
structure Settles (m : Machine) (a : Accepted) (gas : Quantity) (l l' : Ledger β) (b : Address) :
    Prop extends Ledger.Keeps l l' b where
  balance : l'.balance b = (l.balance b + if b = a.sender then a.price gas else 0) +
    if b = m.block.author then a.price (a.gasUsed gas) else 0
  present : l'.present b = true ↔ b = a.sender ∨ b = m.block.author ∨ l.present b = true

theorem settles_conclude (x : Execution) (a : Accepted) (o : Outcome) (refunded : Quantity)
    (w : World β) {b : Address} (h : o.exception = none → b ∉ o.substate.condemned) :
    Settles x.machine a o.gas w.ledger (x.conclude a o refunded w).2.ledger b := by
  have hspares := x.spares_conclude a o refunded w h
  refine ⟨x.keeps_conclude a o refunded w h, ?_, ?_⟩
  · rw [hspares.balance, balance_payFees]
  · rw [hspares.present, present_payFees_iff]

theorem erases_conclude (x : Execution) (a : Accepted) {o : Outcome} (ho : o.exception = none)
    (refunded : Quantity) (w : World β) {b : Address} (h : b ∈ o.substate.condemned) :
    (x.conclude a o refunded w).2.ledger.top.Erases b := by
  rw [x.ledger_conclude, if_pos ho]
  exact Ledger.erases_deleteAll h

/-- Whatever was asked of a new execution before its transaction is finalized, as long as
its side effects were not handed over. Of the accounts condemned then nothing is left, and
none of them is there once the ledger is settled; all others change by the fees alone.
Condemned are those with a self-destruction around which no frame failed. -/
theorem condemned_accounts_go {m : Machine} (hi : m.interpreter.Confined) {depth : Nat}
    {parent : Substate} {w w' : World β} {turns : List Turn} {s : Scene β}
    (h : Scene.Course ⟨.new m depth, parent, w⟩ turns s) (hkept : (.handOver, .ok) ∉ turns)
    {x' : Execution} (hf : s.execution.finalize s.world = .ok (.ok (), x', w')) :
    ∃ a, s.execution.accepted = some a ∧
      (∀ b ∈ s.execution.outcome.substate.condemned, w'.ledger.Gone b ∧
        (w'.ledger.openCount = 0 → ∀ (rest : State) (deleteEmpty : Bool),
          b ∉ rest.settle w'.ledger.root deleteEmpty)) ∧
      (∀ b ∉ s.execution.outcome.substate.condemned,
        Settles m a x'.outcome.gas s.world.ledger w'.ledger b) ∧
      ∀ b, b ∉ s.execution.outcome.substate.condemned ↔
        Thwarted depth b (s.world.since w) := by
  obtain ⟨hm, -, -⟩ := h.stands hi
  obtain ⟨a, o, hx⟩ := executed_of_finalize hf
  obtain ⟨es, hnested, hholds, hfailed⟩ := h.gathered hi hkept hx
  obtain ⟨o', refunded, hd, -, hc⟩ := finalize_eq_conclude hx hf
  obtain ⟨hgas, -⟩ := s.execution.gas_conclude a o' refunded s.world
  have haccepted : s.execution.accepted = some a := by
    unfold accepted
    rw [hx]
  rw [hc] at hgas
  rw [outcome_of_executed hx, hnested.wrote.since_eq, hgas, ← hm]
  refine ⟨a, haccepted, ?_, ?_, ?_⟩
  · intro b hb
    -- a failed transaction has condemned no account
    have hnone : o'.exception = none := by
      apply Classical.byContradiction
      intro hne
      obtain ⟨b', hb'⟩ := (hholds.condemned b).mp hb
      rw [hfailed (hd.exception ▸ hne)] at hb'
      cases hb'
    have herases := s.execution.erases_conclude a hnone refunded s.world (hd.condemned ▸ hb)
    rw [hc] at herases
    refine ⟨Ledger.gone_of_erases herases, fun hopen rest deleteEmpty => ?_⟩
    have hroot : w'.ledger.root = w'.ledger.top := by
      unfold Ledger.root
      rw [List.eq_nil_of_length_eq_zero hopen]
      rfl
    rw [hroot]
    exact herases.not_mem_settle rest deleteEmpty
  · intro b hb
    have hsettles := s.execution.settles_conclude a o' refunded s.world (b := b)
      fun _ => hd.condemned ▸ hb
    rw [hc] at hsettles
    exact hsettles
  · intro b
    rw [hholds.condemned, not_exists, thwarted_iff hnested.within.settled]

end Execution

/-- Code that is lent to accounts 0 and 9. Both self-destruct, but for account 9 that
fails. -/
def Interpreter.condemning : Interpreter := fun v =>
  if v.depth = 0 then
    .call ⟨7, 0, 7, 5, 0, [1]⟩ fun _ => .call ⟨7, 9, 7, 0, 0, [2]⟩ fun _ => .halt ⟨0, [], none⟩
  else .act (.selfDestruct 7)
    (.halt ⟨0, [], if v.input = [1] then none else some .outOfGas⟩)

theorem Interpreter.confined_condemning : condemning.Confined := by
  intro v
  unfold condemning
  split
  · exact fun _ _ => trivial
  · trivial

/-- Account 0 is the author: what it is paid for the gas is lost. -/
theorem account_of_failed_frame_is_spared :
    ∃ (s : Execution.Scene State) (x' : Execution) (w' : World State),
      Execution.Scene.Course ⟨.new (.plain .condemning) 0, ∅, .plain⟩
        [(.accept .toSelf, .ok), (.execute, .done false), (.run .silent, .ok)] s ∧
      s.execution.finalize s.world = .ok (.ok (), x', w') ∧
      w'.ledger.Gone 0 ∧ 0 ∉ (∅ : State).settle w'.ledger.root false ∧
      Thwarted 0 9 (s.world.since .plain) ∧ ¬ Thwarted 0 0 (s.world.since .plain) := by
  have h : ∃ (s : Execution.Scene State) (x' : Execution) (w' : World State),
      Execution.Scene.Course ⟨.new (.plain .condemning) 0, ∅, .plain⟩
        [(.accept .toSelf, .ok), (.execute, .done false), (.run .silent, .ok)] s ∧
      s.execution.outcome.substate.condemned.toList = [0] ∧
      s.execution.finalize s.world = .ok (.ok (), x', w') ∧ w'.ledger.openCount = 0 := by
    refine ⟨_, _, _, .snoc (.snoc (.snoc .nil rfl) rfl) rfl, ?_, rfl, ?_⟩
    · decide +kernel
    · rfl
  obtain ⟨s, x', w', hs, hcondemned, hf, hopen⟩ := h
  have hmem : ∀ b, b ∈ s.execution.outcome.substate.condemned ↔ b = 0 := by
    intro b
    rw [← ExtTreeSet.mem_toList, hcondemned, List.mem_singleton]
  obtain ⟨a, -, hgone, -, hthwarted⟩ := Execution.condemned_accounts_go
    Interpreter.confined_condemning hs (by simp) hf
  obtain ⟨hleft, hsettled⟩ := hgone 0 ((hmem 0).mpr rfl)
  refine ⟨s, x', w', hs, hf, hleft, hsettled hopen ∅ false, ?_, ?_⟩
  · rw [← hthwarted, hmem]
    decide
  · rw [← hthwarted, hmem]
    decide

end Transact
