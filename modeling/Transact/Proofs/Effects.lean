import Transact.Proofs.Finalization
import Transact.Proofs.Nesting

/-!
The side effects of a run are those of the acts all of whose frames ended well, in
the order of the acts.
-/

namespace Transact

/-- The frames that are open before `es` at the depths from `top` to `depth` all end
without exception. -/
def EndsWell (top depth : Nat) (es : List Entry) : Prop :=
  ∀ j ∈ List.range' top (depth + 1 - top), nextExit j es = some none

instance (top depth : Nat) (es : List Entry) : Decidable (EndsWell top depth es) :=
  inferInstanceAs (Decidable (∀ j ∈ _, _))

/-- The acts that count, each with its account: the frame that performed it and
every frame around it from depth `top` on end without exception. -/
def effective (top : Nat) : List Entry → List (Address × Effect)
  | [] => []
  | entry :: es =>
    match entry.act? with
    | some (depth, a, e) =>
      if EndsWell top depth es then (a, e) :: effective top es else effective top es
    | none => effective top es

/-- What a failed message did does not count. -/
example : effective 0 [.act 0 7 (.log [] [0]), .act 1 8 (.log [] [1]),
    .event (.exit 1 (some .outOfGas) 0 []), .event (.exit 0 none 0 [])] =
    [(7, .log [] [0])] := by decide

theorem endsWell_iff {top depth : Nat} {es : List Entry} :
    EndsWell top depth es ↔ ∀ j, top ≤ j → j ≤ depth → nextExit j es = some none := by
  unfold EndsWell
  constructor
  · intro h j ht hd
    exact h j (List.mem_range'_1.mpr ⟨ht, by omega⟩)
  · intro h j hj
    have := List.mem_range'_1.mp hj
    exact h j this.1 (by omega)

theorem effective_cons_act {top depth : Nat} {entry : Entry} {a : Address} {e : Effect}
    (he : entry.act? = some (depth, a, e)) (es : List Entry) :
    effective top (entry :: es) =
      if EndsWell top depth es then (a, e) :: effective top es else effective top es := by
  rw [effective, he]

theorem effective_cons_of_no_act {top : Nat} {entry : Entry} (he : entry.act? = none)
    (es : List Entry) : effective top (entry :: es) = effective top es := by
  rw [effective, he]

theorem effective_of_no_act {top : Nat} {es : List Entry}
    (h : ∀ entry ∈ es, entry.act? = none) : effective top es = [] := by
  induction es with
  | nil => rfl
  | cons entry es ih =>
    rw [effective_cons_of_no_act (h entry List.mem_cons_self)]
    exact ih fun entry he => h entry (List.mem_cons_of_mem _ he)

/-- Later entries do not touch frames that have ended. -/
theorem effective_append {top : Nat} {es : List Entry} (hs : Settled top es) (es' : List Entry) :
    effective top (es ++ es') = effective top es ++ effective top es' := by
  induction es with
  | nil => rfl
  | cons entry es ih =>
    have hi := ih hs.2
    rw [List.cons_append]
    cases he : entry.act? with
    | none => rw [effective_cons_of_no_act he, effective_cons_of_no_act he, hi]
    | some act =>
      obtain ⟨depth, a, e⟩ := act
      have hiff : EndsWell top depth (es ++ es') ↔ EndsWell top depth es := by
        rw [endsWell_iff, endsWell_iff]
        refine forall_congr' fun j => ?_
        refine forall_congr' fun ht => ?_
        refine forall_congr' fun hd => ?_
        rw [nextExit_append_of_ne_none (hs.1 depth a e he j ht hd)]
      rw [effective_cons_act he, effective_cons_act he, hi]
      by_cases hw : EndsWell top depth es
      · rw [if_pos hw, if_pos (hiff.mpr hw)]
        rfl
      · rw [if_neg hw, if_neg (mt hiff.mp hw)]

/-- The end of a frame at depth `d` decides about all that happened in it. -/
theorem effective_closing {d : Nat} {x : Option Exception} {es tail : List Entry}
    (hw : Within d (d + 1) es) (hc : Closing d x tail) :
    effective d (es ++ tail) = if x = none then effective (d + 1) es else [] := by
  induction es with
  | nil =>
    rw [List.nil_append, effective_of_no_act hc.act?_eq_none]
    split <;> rfl
  | cons entry es ih =>
    have hi := ih hw.of_cons
    rw [List.cons_append]
    cases he : entry.act? with
    | none => rw [effective_cons_of_no_act he, effective_cons_of_no_act he, hi]
    | some act =>
      obtain ⟨depth, a, e⟩ := act
      have hd : d ≤ depth := hw.acts entry List.mem_cons_self depth a e he
      have hown : nextExit d (es ++ tail) = some x :=
        hc.nextExit_eq (hw.of_cons.unbound (Nat.lt_succ_self d))
      have hinner : ∀ j, d + 1 ≤ j → j ≤ depth → nextExit j (es ++ tail) = nextExit j es :=
        fun j hj hk => nextExit_append_of_ne_none (hw.settled.1 depth a e he j hj hk) tail
      have hiff : EndsWell d depth (es ++ tail) ↔ x = none ∧ EndsWell (d + 1) depth es := by
        rw [endsWell_iff, endsWell_iff]
        constructor
        · intro h
          constructor
          · exact Option.some.inj (hown.symm.trans (h d (Nat.le_refl d) hd))
          · intro j hj hk
            exact (hinner j hj hk).symm.trans (h j (Nat.le_of_succ_le hj) hk)
        · rintro ⟨rfl, h⟩ j hj hk
          by_cases hne : d = j
          · subst hne
            exact hown
          · have hj' : d + 1 ≤ j := by omega
            exact (hinner j hj' hk).trans (h j hj' hk)
      rw [effective_cons_act he, effective_cons_act he, hi]
      by_cases hx : x = none
      · by_cases hr : EndsWell (d + 1) depth es <;> simp [hiff, hx, hr]
      · simp [hiff, hx]

/-! What a substate holds of the effects that count. -/

/-- The logs among the acts `done`. -/
def loggedBy (done : List (Address × Effect)) : List LogEntry :=
  done.filterMap fun
    | (a, .log topics data) => some ⟨a, topics, data⟩
    | _ => none

/-- The refunds among the acts `done`, summed up. -/
def refundedBy : List (Address × Effect) → Nat
  | [] => 0
  | (_, .refund amount) :: done => amount.toNat + refundedBy done
  | _ :: done => refundedBy done

/-- The substate is made of the acts `done`. -/
structure Substate.Holds (s : Substate) (done : List (Address × Effect)) : Prop where
  logs : s.logs = loggedBy done
  condemned : ∀ a, a ∈ s.condemned ↔ ∃ b, (a, .selfDestruct b) ∈ done
  refunds : s.refunds.toNat = min Quantity.most (refundedBy done)

theorem loggedBy_append (done done' : List (Address × Effect)) :
    loggedBy (done ++ done') = loggedBy done ++ loggedBy done' := List.filterMap_append

theorem refundedBy_append (done done' : List (Address × Effect)) :
    refundedBy (done ++ done') = refundedBy done + refundedBy done' := by
  induction done with
  | nil => exact (Nat.zero_add _).symm
  | cons act done ih =>
    obtain ⟨a, e⟩ := act
    cases e with
    | refund amount =>
      simp only [List.cons_append, refundedBy]
      rw [ih, Nat.add_assoc]
    | _ => exact ih

namespace Substate.Holds

variable {s t : Substate} {done done' : List (Address × Effect)}

theorem empty : (∅ : Substate).Holds [] where
  logs := rfl
  condemned a := by
    have hempty : a ∉ (∅ : Substate).condemned := Std.ExtTreeSet.not_mem_empty
    simp [hempty]
  refunds := rfl

theorem join (h : s.Holds done) (h' : t.Holds done') : (s.join t).Holds (done ++ done') where
  logs := by
    rw [loggedBy_append, ← h.logs, ← h'.logs]
    rfl
  condemned a := by
    have hunion : a ∈ (s.join t).condemned ↔ a ∈ s.condemned ∨ a ∈ t.condemned :=
      Std.ExtTreeSet.mem_union_iff
    rw [hunion, h.condemned, h'.condemned]
    simp [exists_or]
  refunds := by
    have hadd : (s.join t).refunds.toNat = min (s.refunds.toNat + t.refunds.toNat) Quantity.most :=
      rfl
    rw [hadd, refundedBy_append, h.refunds, h'.refunds]
    omega

/-- An act of a frame joins what the frame holds. -/
theorem act {β : Type} [Store β] (f : Frame) (e : Effect) (w : World β) (h : s.Holds done) :
    (f.act e s w).1.Holds (done ++ [(f.context.address, e)]) := by
  cases e with
  | setStorage i v =>
    refine ⟨?_, ?_, ?_⟩
    · rw [loggedBy_append]
      exact h.logs.trans (List.append_nil _).symm
    · intro a
      simpa [Frame.act] using h.condemned a
    · rw [refundedBy_append]
      exact h.refunds
  | log topics data =>
    refine ⟨?_, ?_, ?_⟩
    · rw [loggedBy_append, ← h.logs]
      rfl
    · intro a
      simpa [Frame.act, Substate.log] using h.condemned a
    · rw [refundedBy_append]
      exact h.refunds
  | refund amount =>
    refine ⟨?_, ?_, ?_⟩
    · rw [loggedBy_append]
      exact h.logs.trans (List.append_nil _).symm
    · intro a
      simpa [Frame.act, Substate.refund] using h.condemned a
    · have hadd : (f.act (.refund amount) s w).1.refunds.toNat =
          min (s.refunds.toNat + amount.toNat) Quantity.most := rfl
      have hone : refundedBy [(f.context.address, .refund amount)] = amount.toNat := by
        simp [refundedBy]
      rw [hadd, refundedBy_append, h.refunds, hone]
      omega
  | selfDestruct b =>
    refine ⟨?_, ?_, ?_⟩
    · rw [loggedBy_append]
      exact h.logs.trans (List.append_nil _).symm
    · intro a
      have hins : a ∈ (f.act (.selfDestruct b) s w).1.condemned ↔
          f.context.address = a ∨ a ∈ s.condemned := by
        simp [Frame.act, Substate.condemn, Std.ExtTreeSet.mem_insert]
      rw [hins, h.condemned a]
      constructor
      · rintro (rfl | ⟨b', hb⟩)
        · exact ⟨b, List.mem_append_right _ (List.mem_singleton.mpr rfl)⟩
        · exact ⟨b', List.mem_append_left _ hb⟩
      · rintro ⟨b', hb⟩
        rcases List.mem_append.mp hb with hb | hb
        · exact .inr ⟨b', hb⟩
        · cases List.mem_singleton.mp hb
          exact .inl rfl
    · rw [refundedBy_append]
      exact h.refunds

end Substate.Holds

/-! Running code. -/

namespace World

variable {β : Type} {d : Nat} {c : Context} {s : Substate} {w w' : World β} {o : Outcome}
  {es : List Entry}

/-- In a frame the side effects grow by those of the acts that count within it. -/
def Grown (d : Nat) (c : Context) (s : Substate) (w : World β) (s' : Substate)
    (w' : World β) : Prop :=
  ∃ es, w.Traced d c w' es ∧
    ∀ done, s.Holds done → s'.Holds (done ++ effective (d + 1) es)

/-- A message ends with the side effects of the acts that count within it, and with
none if it failed. -/
def Gathered (d : Nat) (w : World β) (o : Outcome) (w' : World β) : Prop :=
  ∃ es, w.Nested d w' es ∧ o.substate.Holds (effective d es) ∧
    (o.exception ≠ none → effective d es = [])

theorem Grown.of_quiet (hw : w.Wrote w' es) (hq : Quiet es) : Grown d c s w s w' := by
  refine ⟨es, .of_quiet hw hq, ?_⟩
  intro done h
  rw [effective_of_no_act hq.act?_eq_none, List.append_nil]
  exact h

theorem Grown.trans {s₁ s₂ : Substate} {w₁ w₂ : World β}
    (h : Grown d c s w s₁ w₁) (h' : Grown d c s₁ w₁ s₂ w₂) : Grown d c s w s₂ w₂ := by
  obtain ⟨es, ht, hs⟩ := h
  obtain ⟨es', ht', hs'⟩ := h'
  refine ⟨es ++ es', ht.trans ht', ?_⟩
  intro done hd
  rw [effective_append ht.within.settled, ← List.append_assoc]
  exact hs' _ (hs done hd)

theorem Gathered.grown (h : Gathered (d + 1) w o w') : Grown d c s w (s.absorb o) w' := by
  obtain ⟨es, hn, hs, hx⟩ := h
  refine ⟨es, hn.traced, ?_⟩
  intro done hd
  by_cases ho : o.exception = none
  · rw [Substate.absorb_of_none ho]
    exact hd.join hs
  · rw [hx ho, List.append_nil, Substate.absorb_of_exception ho]
    exact hd

theorem Gathered.of_quiet (hw : w.Wrote w' es) (hq : Quiet es) (ho : o.substate = ∅) :
    Gathered d w o w' := by
  have he : effective d es = [] := effective_of_no_act hq.act?_eq_none
  refine ⟨es, .of_quiet hw hq, ?_, fun _ => he⟩
  rw [he, ho]
  exact .empty

/-- After quiet entries a message gathers as before. -/
theorem Gathered.after_quiet {w₁ : World β} (hw : w.Wrote w₁ es) (hq : Quiet es)
    (h : w₁.Gathered d o w') : w.Gathered d o w' := by
  obtain ⟨es', hn, hs, hx⟩ := h
  have heff : effective d (es ++ es') = effective d es' := by
    rw [effective_append (.of_no_act hq.act?_eq_none), effective_of_no_act hq.act?_eq_none,
      List.nil_append]
  refine ⟨es ++ es', .after_quiet hw hq hn, ?_, ?_⟩
  · rw [heff]
    exact hs
  · intro ho
    rw [heff]
    exact hx ho

/-- The diary is all that matters. -/
theorem Gathered.of_edit {f : Ledger β → Ledger β} (h : Gathered d (w.edit f) o w') :
    Gathered d w o w' := by
  obtain ⟨es, hn, hs⟩ := h
  exact ⟨es, ⟨hn.wrote, hn.within, hn.attributed⟩, hs⟩

end World

namespace Machine

variable {β : Type} [Store β] (m : Machine) (observer : Observer)

/-- The act of a frame counts within it. -/
theorem grown_act (d : Nat) (c : Context) (e : Effect) (s : Substate) (w : World β) :
    w.Grown d c s ((m.frame d c observer).act e s w).1 ((m.frame d c observer).act e s w).2 := by
  obtain ⟨es, hw, hq⟩ := (m.frame d c observer).wrote_act e s w
  refine ⟨.act d c.address e :: es, .act hw hq, ?_⟩
  intro done h
  have hwell : EndsWell (d + 1) d es := by
    rw [endsWell_iff]
    intro j hj hk
    omega
  rw [effective_cons_act rfl, if_pos hwell, effective_of_no_act hq.act?_eq_none]
  exact h.act (m.frame d c observer) e w

theorem steady_gathered : m.Steady observer (fun d c s (w : World β) => w.Grown d c s)
    (fun d _ _ w o w' => w.Gathered d o w') where
  refl := .of_quiet (.refl _) .nil
  trans := World.Grown.trans
  observe := by
    intro d c i s w
    obtain ⟨es, hw, hq⟩ := (m.frame d c observer).wrote_observe i w
    exact .of_quiet hw hq
  act := m.grown_act observer _ _ _ _ _
  note := .of_quiet (.write _ _) (.singleton (Entry.idle_note _ _))
  call := World.Gathered.grown
  create hm := hm.of_edit.grown
  refuse := by
    intro d t k w hd
    obtain ⟨es, hw, hq⟩ := wrote_refuse d t k w
    exact .of_quiet hw hq rfl
  done := by
    intro d t k w o w' hd hr
    obtain ⟨es, hw, hq⟩ := hr.wrote
    refine .of_quiet hw hq ?_
    cases hr <;> rfl
  close := by
    intro d t k w p w₁ h s w₂ h' dep w₃ hd hr hp hf hs hdep
    obtain ⟨announced, hw, hq⟩ := hr.wrote
    obtain ⟨es, ht, hg⟩ := hf
    obtain ⟨kept, hw', hq'⟩ := hdep.wrote
    obtain ⟨tail, hwt, hc⟩ := w₃.wrote_closed d (h'.ended p dep s)
    have hc' := hc.after_quiet hq'
    have heff : effective d (.enter (m.invocation d p) :: (es ++ (kept ++ tail))) =
        if (h'.ended p dep s).exception = none then effective (d + 1) es else [] := by
      rw [effective_cons_of_no_act rfl, effective_closing ht.within hc']
    have hn := World.Nested.of_frame (v := m.invocation d p) ht (hw'.trans hwt) hc'
    refine .after_quiet hw hq ⟨_, hn, ?_, ?_⟩
    · rw [heff]
      by_cases ho : (h'.ended p dep s).exception = none
      · rw [if_pos ho]
        rw [Halt.exception_ended] at ho
        rw [Halt.ended_of_none ho]
        exact hg [] .empty
      · rw [if_neg ho]
        rw [Halt.exception_ended] at ho
        rw [Halt.substate_ended_of_some ho]
        exact .empty
    · intro ho
      rw [heff, if_neg ho]

end Machine

namespace Execution

variable {β : Type} [Store β]

theorem gathered_of_carried {x : Execution} (hi : x.machine.interpreter.Confined)
    {observer : Observer} {w w' : World β} {task : Task} {a : Option Accepted} {o : Outcome}
    (h : x.Carried observer w task (.ok ()) (.executed a o) w') : w.Gathered x.depth o w' := by
  have hc := (x.machine.steady_gathered (β := β) observer).conduct
  cases h with
  | @transaction a o w' ha hs =>
    have hw : w.Wrote (a.charge w) [.event a.event] := World.Wrote.write _ _
    refine .after_quiet hw (.singleton ?_) (hc.of_send hi hs)
    unfold Accepted.event
    dsimp only
    split <;> exact ⟨rfl, rfl⟩
  | message hs => exact hc.of_send hi hs

/-- A new execution carries out its task unless the transaction is refused. Its
substate then holds exactly the acts all of whose frames ended without exception:
the logs in their order, the condemned accounts, and the refunds up to the largest
amount. All these frames do end, and each act is for the account whose code performed
it. Finalization publishes those logs if the transaction succeeded, and none else. -/
theorem effects_are_effective_acts (x : Execution) (hx : x.phase = .created)
    (hi : x.machine.interpreter.Confined) (task : Task) (observer : Observer) (w : World β) :
    ∃ r x' w', x.carryOut task observer w = (r, x', w') ∧
      (r ≠ .ok () → x'.stage = .rejected) ∧
      (r = .ok () →
        x'.stage = .executed ∧
        Settled x.depth (w'.since w) ∧
        Attributed (fun _ => none) (w'.since w) ∧
        x'.outcome.substate.logs = loggedBy (effective x.depth (w'.since w)) ∧
        (∀ a, a ∈ x'.outcome.substate.condemned ↔
          ∃ b, (a, .selfDestruct b) ∈ effective x.depth (w'.since w)) ∧
        x'.outcome.substate.refunds.toNat =
          min Quantity.most (refundedBy (effective x.depth (w'.since w))) ∧
        ∀ t, task = .transaction t →
          (0 < x.machine.rules.refundQuotient ∨ x'.outcome.exception ≠ none →
            ∃ x₂ w₂, x'.finalize w' = .ok (.ok (), x₂, w₂)) ∧
          ∀ r₂ x₂ w₂, x'.finalize w' = .ok (r₂, x₂, w₂) →
            r₂ = .ok () ∧
            x₂.logs = if x'.outcome.exception = none
              then loggedBy (effective x.depth (w'.since w)) else []) := by
  obtain ⟨r, phase, path, w', hc, he⟩ := x.carried hx hi task observer w
  refine ⟨r, _, w', he, ?_, ?_⟩
  · intro hr
    cases hc with
    | refused => rfl
    | transaction => exact absurd rfl hr
    | message => exact absurd rfl hr
  · intro hr
    subst hr
    obtain ⟨a, o, rfl⟩ : ∃ a o, phase = .executed a o := by
      cases hc with
      | transaction => exact ⟨_, _, rfl⟩
      | message => exact ⟨_, _, rfl⟩
    obtain ⟨es, hn, hs, -⟩ := gathered_of_carried hi hc
    rw [hn.wrote.since_eq]
    refine ⟨rfl, hn.within.settled, hn.attributed _, hs.logs, hs.condemned, hs.refunds, ?_⟩
    intro t ht
    subst ht
    obtain ⟨a, rfl⟩ : ∃ b, a = some b := by
      cases hc
      exact ⟨_, rfl⟩
    constructor
    · intro h
      obtain ⟨o', refunded, -, hf⟩ :=
        finalize_eq_ok (x := { x with phase := .executed (some a) o, path }) rfl h w'
      exact ⟨_, _, hf⟩
    · intro r₂ x₂ w₂ hf
      have hl := logs_finalize rfl hf
      rw [hs.logs] at hl
      exact hl

end Execution

/-- Code that logs, sends itself two messages of which the second fails, and logs
again. -/
def Interpreter.logging : Interpreter := fun v =>
  if v.depth = 0 then
    .act (.log [] [0]) (.call { Call.toSelf with data := [1] } fun _ =>
      .call { Call.toSelf with data := [2] } fun _ => .act (.log [] [3]) (.halt ⟨0, [], none⟩))
  else .act (.log [] v.input)
    (.halt ⟨0, [], if v.input = [1] then none else some .outOfGas⟩)

theorem Interpreter.confined_logging : logging.Confined := by
  intro v
  unfold logging
  split
  · exact fun _ _ => trivial
  · trivial

theorem logs_of_nested_messages :
    ∃ x' w' x₂ w₂, (Execution.new (.plain .logging) 0).carryOut (.transaction .toSelf) .silent
        .plain = (.ok (), x', w') ∧
      x'.outcome.substate.logs.map LogEntry.data = [[0], [1], [3]] ∧
      x'.outcome.substate.logs = loggedBy (effective 0 (w'.since .plain)) ∧
      x'.finalize w' = .ok (.ok (), x₂, w₂) ∧
      x₂.logs = loggedBy (effective 0 (w'.since .plain)) := by
  obtain ⟨r, x', w', h, -, hok⟩ := Execution.effects_are_effective_acts
    (.new (.plain .logging) 0) rfl Interpreter.confined_logging (.transaction .toSelf) .silent
    World.plain
  have hr : ((Execution.new (.plain .logging) 0).carryOut (.transaction .toSelf) .silent
      World.plain).1 = .ok () := by rfl
  have hlogs : ((Execution.new (.plain .logging) 0).carryOut (.transaction .toSelf) .silent
      World.plain).2.1.outcome.substate.logs.map LogEntry.data = [[0], [1], [3]] := by rfl
  have hnone : ((Execution.new (.plain .logging) 0).carryOut (.transaction .toSelf) .silent
      World.plain).2.1.outcome.exception = none := by rfl
  rw [h] at hr hlogs hnone
  cases hr
  obtain ⟨-, -, -, hl, -, -, hf⟩ := hok rfl
  obtain ⟨hfin, hpub⟩ := hf _ rfl
  obtain ⟨x₂, w₂, h₂⟩ := hfin (.inl (by decide))
  obtain ⟨-, hl₂⟩ := hpub _ _ _ h₂
  rw [if_pos hnone] at hl₂
  exact ⟨x', w', x₂, w₂, h, hlogs, hl, h₂, hl₂⟩

end Transact
