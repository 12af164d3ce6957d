import Transact.Proofs.Conduct

/-!
How the diary of a run is nested. Each act stands between the entry of the frame
that performs it and that frame's exit, and so does all that is nested in the
frame.
-/

namespace Transact

theorem Diary.toList_since {d d' : Diary} {es : List Entry} (h : d'.toList = d.toList ++ es) :
    (d'.since d.size).toList = es := by
  have hsize : d'.size = d.size + es.length := by
    have hl := congrArg List.length h
    simpa using hl
  unfold since
  rw [Array.toList_extract, List.extract_eq_take_drop, h, hsize]
  simp

namespace World

variable {β : Type}

/-- What was written to the diary since `w`. -/
def since (w' w : World β) : List Entry := (w'.diary.since w.diary.size).toList

/-- From `w` to `w'` the diary grew by `es`. -/
def Wrote (w w' : World β) (es : List Entry) : Prop :=
  w'.diary.toList = w.diary.toList ++ es

namespace Wrote

variable {w w' w'' : World β} {es es' : List Entry}

theorem refl (w : World β) : w.Wrote w [] := (List.append_nil _).symm

theorem of_diary_eq (h : w'.diary = w.diary) : w.Wrote w' [] := by
  unfold Wrote
  rw [h, List.append_nil]

theorem trans (h : w.Wrote w' es) (h' : w'.Wrote w'' es') : w.Wrote w'' (es ++ es') := by
  unfold Wrote at *
  rw [h', h, List.append_assoc]

theorem write (w : World β) (e : Entry) : w.Wrote (w.write e) [e] := Array.toList_push

theorem remarks (w : World β) (rs : List Remark) : w.Wrote (w.remarks rs) (rs.map .remark) := by
  unfold World.remarks
  induction rs generalizing w with
  | nil => exact refl w
  | cons r rs ih => exact (write w (.remark r)).trans (ih (w.remark r))

theorem since_eq (h : w.Wrote w' es) : w'.since w = es := Diary.toList_since h

end Wrote

end World

namespace Entry

/-- An effect carried out: at which depth, for which account, and what. -/
def act? : Entry → Option (Nat × Address × Effect)
  | .act depth a e => some (depth, a, e)
  | _ => none

/-- How a frame ends here. -/
def ending? : Entry → Option (Option Exception)
  | .event (.exit _ x _ _) => some x
  | _ => none

/-- The depth of a frame that begins or ends here. -/
def bound? : Entry → Option Nat
  | .enter v => some v.depth
  | .event (.exit depth _ _ _) => some depth
  | _ => none

/-- Whose code runs at each depth, after `r`. -/
def running (r : Nat → Option Address) : Entry → Nat → Option Address
  | .enter v => fun k => if k = v.depth then some v.context.address else r k
  | _ => r

theorem running_of_bound? {entry : Entry} {r : Nat → Option Address} {k : Nat}
    (h : entry.bound? ≠ some k) : entry.running r k = r k := by
  unfold running
  split
  · next v => exact if_neg fun hk => h (congrArg some hk.symm)
  · rfl

/-- Not an act, and neither beginning nor end of a frame. -/
def Idle (entry : Entry) : Prop := entry.act? = none ∧ entry.bound? = none

@[simp] theorem idle_remark (r : Remark) : (remark r).Idle := ⟨rfl, rfl⟩

@[simp] theorem idle_step (s : Step) : (step s).Idle := ⟨rfl, rfl⟩

@[simp] theorem idle_note (depth : Nat) (s : Sighting) : (note depth s).Idle := ⟨rfl, rfl⟩

@[simp] theorem idle_message (message : Message) (depth : Nat) (c : Context) :
    (event (message.event depth c)).Idle := by
  cases message <;> exact ⟨rfl, rfl⟩

end Entry

/-- Nothing is done in `es`, and no frame begins or ends. -/
def Quiet (es : List Entry) : Prop := ∀ entry ∈ es, entry.Idle

namespace Quiet

variable {es es' : List Entry}

theorem nil : Quiet [] := fun _ he => absurd he List.not_mem_nil

theorem singleton {entry : Entry} (h : entry.Idle) : Quiet [entry] := by
  intro e he
  cases List.mem_singleton.mp he
  exact h

theorem append (h : Quiet es) (h' : Quiet es') : Quiet (es ++ es') := by
  intro entry he
  rcases List.mem_append.mp he with he | he
  · exact h entry he
  · exact h' entry he

theorem remarks (rs : List Remark) : Quiet (rs.map .remark) := by
  intro entry he
  obtain ⟨r, -, rfl⟩ := List.mem_map.mp he
  exact ⟨rfl, rfl⟩

theorem act?_eq_none (h : Quiet es) : ∀ entry ∈ es, entry.act? = none :=
  fun entry he => (h entry he).1

theorem unbound (h : Quiet es) (k : Nat) : ∀ entry ∈ es, entry.bound? ≠ some k := by
  intro entry he hx
  rw [(h entry he).2] at hx
  cases hx

end Quiet

/-- How the frame open at depth `k` ends in `es`: by the first entry that bounds a
frame at that depth, if that is an end. -/
def nextExit (k : Nat) (es : List Entry) : Option (Option Exception) :=
  (es.find? fun entry => entry.bound? = some k).bind Entry.ending?

theorem nextExit_append_of_ne_none {k : Nat} {es : List Entry} (h : nextExit k es ≠ none)
    (es' : List Entry) : nextExit k (es ++ es') = nextExit k es := by
  unfold nextExit at *
  rw [List.find?_append]
  cases hf : es.find? fun entry => entry.bound? = some k with
  | none =>
    rw [hf] at h
    exact absurd rfl h
  | some entry => rfl

theorem nextExit_append_of_unbound {k : Nat} {es : List Entry}
    (h : ∀ entry ∈ es, entry.bound? ≠ some k) (es' : List Entry) :
    nextExit k (es ++ es') = nextExit k es' := by
  have hf : es.find? (fun entry => entry.bound? = some k) = none := by
    rw [List.find?_eq_none]
    intro entry he
    simpa using h entry he
  unfold nextExit
  rw [List.find?_append, hf, Option.none_or]

/-- The frames from depth `b` on down around each act end in `es`. -/
def Settled (b : Nat) : List Entry → Prop
  | [] => True
  | entry :: es =>
    (∀ k a e, entry.act? = some (k, a, e) → ∀ j, b ≤ j → j ≤ k → nextExit j es ≠ none) ∧
      Settled b es

/-- Each act is for the account whose code runs at its depth. -/
def Attributed (r : Nat → Option Address) : List Entry → Prop
  | [] => True
  | entry :: es =>
    (∀ k a e, entry.act? = some (k, a, e) → r k = some a) ∧ Attributed (entry.running r) es

theorem Settled.append {b : Nat} {es es' : List Entry} (h : Settled b es) (h' : Settled b es') :
    Settled b (es ++ es') := by
  induction es with
  | nil => exact h'
  | cons entry es ih =>
    refine ⟨?_, ih h.2⟩
    intro k a e he j hb hk
    have hn := h.1 k a e he j hb hk
    exact (nextExit_append_of_ne_none hn es').symm ▸ hn

theorem Settled.of_no_act {b : Nat} {es : List Entry} (h : ∀ entry ∈ es, entry.act? = none) :
    Settled b es := by
  induction es with
  | nil => trivial
  | cons entry es ih =>
    refine ⟨?_, ih fun entry he => h entry (List.mem_cons_of_mem _ he)⟩
    intro k a e hx
    rw [h entry List.mem_cons_self] at hx
    cases hx

theorem Attributed.of_no_act {r : Nat → Option Address} {es : List Entry}
    (h : ∀ entry ∈ es, entry.act? = none) : Attributed r es := by
  induction es generalizing r with
  | nil => trivial
  | cons entry es ih =>
    refine ⟨?_, ih fun entry he => h entry (List.mem_cons_of_mem _ he)⟩
    intro k a e hx
    rw [h entry List.mem_cons_self] at hx
    cases hx

theorem attributed_append {r : Nat → Option Address} {es es' : List Entry} :
    Attributed r (es ++ es') ↔
      Attributed r es ∧ Attributed (es.foldl (fun r entry => entry.running r) r) es' := by
  induction es generalizing r with
  | nil => exact ⟨fun h => ⟨trivial, h⟩, fun h => h.2⟩
  | cons entry es ih =>
    have hi := ih (r := entry.running r)
    constructor
    · intro h
      have h' := hi.mp h.2
      exact ⟨⟨h.1, h'.1⟩, h'.2⟩
    · intro h
      exact ⟨h.1.1, hi.mpr ⟨h.1.2, h.2⟩⟩

/-- The acts are at depth `a` or deeper, the frames that begin and end at depth `b` or
deeper, and the frames from `b` on down that are open at an act end. -/
structure Within (a b : Nat) (es : List Entry) : Prop where
  acts : ∀ entry ∈ es, ∀ k x e, entry.act? = some (k, x, e) → a ≤ k
  frames : ∀ entry ∈ es, ∀ k, entry.bound? = some k → b ≤ k
  settled : Settled b es

namespace Within

variable {a b : Nat} {es es' : List Entry}

theorem append (h : Within a b es) (h' : Within a b es') : Within a b (es ++ es') where
  acts := by
    intro entry he
    rcases List.mem_append.mp he with he | he
    · exact h.acts entry he
    · exact h'.acts entry he
  frames := by
    intro entry he
    rcases List.mem_append.mp he with he | he
    · exact h.frames entry he
    · exact h'.frames entry he
  settled := h.settled.append h'.settled

theorem of_cons {entry : Entry} (h : Within a b (entry :: es)) : Within a b es where
  acts entry he := h.acts entry (List.mem_cons_of_mem _ he)
  frames entry he := h.frames entry (List.mem_cons_of_mem _ he)
  settled := h.settled.2

/-- What is nested in a frame at depth `d`, seen from that frame. -/
theorem of_nested {d : Nat} (h : Within (d + 1) (d + 1) es) : Within d (d + 1) es where
  acts entry he k x e hx := Nat.le_of_succ_le (h.acts entry he k x e hx)
  frames := h.frames
  settled := h.settled

theorem of_quiet (h : Quiet es) : Within a b es where
  acts := by
    intro entry he k x e hx
    rw [h.act?_eq_none entry he] at hx
    cases hx
  frames entry he k hk := absurd hk (h.unbound k entry he)
  settled := .of_no_act h.act?_eq_none

/-- An act of the frame itself. -/
theorem act (d : Nat) (x : Address) (e : Effect) : Within d (d + 1) [.act d x e] where
  acts := by
    intro entry he k y f hx
    cases List.mem_singleton.mp he
    cases hx
    exact Nat.le_refl d
  frames := by
    intro entry he k hk
    cases List.mem_singleton.mp he
    cases hk
  settled := by
    refine ⟨?_, trivial⟩
    intro k y f hx j hb hk
    cases hx
    omega

theorem unbound (h : Within a b es) {k : Nat} (hk : k < b) :
    ∀ entry ∈ es, entry.bound? ≠ some k := by
  intro entry he hx
  exact absurd (h.frames entry he k hx) (Nat.not_le.mpr hk)

/-- Frames deeper than `k` do not change whose code runs at `k`. -/
theorem running_eq (h : Within a b es) {k : Nat} (hk : k < b) (r : Nat → Option Address) :
    es.foldl (fun r entry => entry.running r) r k = r k := by
  have hu := h.unbound hk
  clear h
  induction es generalizing r with
  | nil => rfl
  | cons entry es ih =>
    rw [List.foldl_cons, ih _ fun entry he => hu entry (List.mem_cons_of_mem _ he),
      Entry.running_of_bound? (hu entry List.mem_cons_self)]

end Within

/-- The last entries of a message at depth `d` whose code ended with `x`. -/
structure Closing (d : Nat) (x : Option Exception) (es : List Entry) : Prop where
  eq : ∃ quiet gas output, Quiet quiet ∧ es = quiet ++ [.event (.exit d x gas output)]

namespace Closing

variable {d : Nat} {x : Option Exception} {es tail : List Entry}

/-- What is open at depth `d` before `es` ends with the message, if no frame at that
depth begins or ends in `es`. -/
theorem nextExit_eq (h : Closing d x tail) (hu : ∀ entry ∈ es, entry.bound? ≠ some d) :
    nextExit d (es ++ tail) = some x := by
  obtain ⟨quiet, gas, output, hq, rfl⟩ := h.eq
  rw [nextExit_append_of_unbound hu, nextExit_append_of_unbound (hq.unbound d)]
  simp [nextExit, Entry.bound?, Entry.ending?]

theorem act?_eq_none (h : Closing d x tail) : ∀ entry ∈ tail, entry.act? = none := by
  obtain ⟨quiet, gas, output, hq, rfl⟩ := h.eq
  intro entry he
  rcases List.mem_append.mp he with he | he
  · exact hq.act?_eq_none entry he
  · cases List.mem_singleton.mp he
    rfl

theorem bound_le (h : Closing d x tail) : ∀ entry ∈ tail, ∀ k, entry.bound? = some k → d ≤ k := by
  obtain ⟨quiet, gas, output, hq, rfl⟩ := h.eq
  intro entry he k hk
  rcases List.mem_append.mp he with he | he
  · exact absurd hk (hq.unbound k entry he)
  · cases List.mem_singleton.mp he
    cases hk
    exact Nat.le_refl d

theorem after_quiet (h : Closing d x tail) (hq : Quiet es) : Closing d x (es ++ tail) := by
  obtain ⟨quiet, gas, output, hquiet, rfl⟩ := h.eq
  exact ⟨es ++ quiet, gas, output, hq.append hquiet, (List.append_assoc _ _ _).symm⟩

/-- The end of the frame at depth `d` settles what was open there. -/
theorem settled {a : Nat} (h : Closing d x tail) (hw : Within a (d + 1) es) :
    Settled d (es ++ tail) := by
  induction es with
  | nil => exact .of_no_act h.act?_eq_none
  | cons entry es ih =>
    refine ⟨?_, ih hw.of_cons⟩
    intro k a e he j hd hk
    by_cases hj : d = j
    · subst hj
      have hn := h.nextExit_eq (hw.of_cons.unbound (Nat.lt_succ_self d))
      exact fun hx => Option.some_ne_none x (hn.symm.trans hx)
    · have hn := hw.settled.1 k a e he j (by omega) hk
      exact (nextExit_append_of_ne_none hn tail).symm ▸ hn

end Closing

namespace World

variable {β : Type} {d : Nat} {c : Context} {w w' w'' : World β} {es es' : List Entry}

/-- A frame at depth `d` that runs in `c` wrote `es`. -/
structure Traced (d : Nat) (c : Context) (w w' : World β) (es : List Entry) : Prop where
  wrote : w.Wrote w' es
  within : Within d (d + 1) es
  attributed : ∀ r, r d = some c.address → Attributed r es

/-- A message at depth `d` wrote `es`. -/
structure Nested (d : Nat) (w w' : World β) (es : List Entry) : Prop where
  wrote : w.Wrote w' es
  within : Within d d es
  attributed : ∀ r, Attributed r es

theorem Traced.of_quiet (h : w.Wrote w' es) (hq : Quiet es) : w.Traced d c w' es :=
  ⟨h, .of_quiet hq, fun _ _ => .of_no_act hq.act?_eq_none⟩

theorem Nested.of_quiet (h : w.Wrote w' es) (hq : Quiet es) : w.Nested d w' es :=
  ⟨h, .of_quiet hq, fun _ => .of_no_act hq.act?_eq_none⟩

/-- After quiet entries a message goes as before. -/
theorem Nested.after_quiet (hw : w.Wrote w' es) (hq : Quiet es) (h : w'.Nested d w'' es') :
    w.Nested d w'' (es ++ es') where
  wrote := hw.trans h.wrote
  within := .append (.of_quiet hq) h.within
  attributed _ := attributed_append.mpr ⟨.of_no_act hq.act?_eq_none, h.attributed _⟩

theorem Traced.trans (h : w.Traced d c w' es) (h' : w'.Traced d c w'' es') :
    w.Traced d c w'' (es ++ es') where
  wrote := h.wrote.trans h'.wrote
  within := h.within.append h'.within
  attributed r hr :=
    attributed_append.mpr ⟨h.attributed r hr,
      h'.attributed _ ((h.within.running_eq (Nat.lt_succ_self d) r).trans hr)⟩

/-- What a nested message wrote was written by the frame that sent it. -/
theorem Nested.traced (h : w.Nested (d + 1) w' es) : w.Traced d c w' es :=
  ⟨h.wrote, h.within.of_nested, fun r _ => h.attributed r⟩

theorem Traced.act {e : Effect} (h : w.Wrote w' (.act d c.address e :: es)) (hq : Quiet es) :
    w.Traced d c w' (.act d c.address e :: es) where
  wrote := h
  within := (Within.act d c.address e).append (.of_quiet hq)
  attributed := by
    intro r hr
    refine ⟨?_, .of_no_act hq.act?_eq_none⟩
    intro k a f hx
    cases hx
    exact hr

/-- A message whose code ran: the frame of its code began and went on, and then it
ended. -/
theorem Nested.of_frame {v : Invocation} {tail : List Entry} {x : Option Exception}
    (hf : (w.write (.enter v)).Traced v.depth v.context w' es) (ht : w'.Wrote w'' tail)
    (hc : Closing v.depth x tail) : w.Nested v.depth w'' (.enter v :: (es ++ tail)) where
  wrote := (Wrote.write w (.enter v)).trans (hf.wrote.trans ht)
  within := by
    refine ⟨?_, ?_, ?_, hc.settled hf.within⟩
    · intro entry he k a e hx
      rcases List.mem_cons.mp he with rfl | he
      · cases hx
      · rcases List.mem_append.mp he with he | he
        · exact hf.within.acts entry he k a e hx
        · rw [hc.act?_eq_none entry he] at hx
          cases hx
    · intro entry he k hk
      rcases List.mem_cons.mp he with rfl | he
      · cases hk
        exact Nat.le_refl _
      · rcases List.mem_append.mp he with he | he
        · exact Nat.le_of_succ_le (hf.within.frames entry he k hk)
        · exact hc.bound_le entry he k hk
    · intro k a e hx
      cases hx
  attributed := by
    intro r
    refine ⟨?_, attributed_append.mpr ⟨?_, ?_⟩⟩
    · intro k a e hx
      cases hx
    · exact hf.attributed _ (if_pos rfl)
    · exact .of_no_act hc.act?_eq_none

end World

/-! What each part of a frame and of a message writes. -/

namespace Frame

variable {β : Type} (f : Frame)

theorem wrote_observe (i : Instruction) (w : World β) :
    ∃ es, w.Wrote (f.observe i w) es ∧ Quiet es := by
  let step : Step := ⟨i, f.depth, f.context.address⟩
  refine ⟨_, (World.Wrote.write w (.step step)).trans (.remarks _ (f.observer step)), ?_⟩
  exact (Quiet.singleton (Entry.idle_step step)).append (.remarks _)

theorem wrote_act [Store β] (e : Effect) (s : Substate) (w : World β) :
    ∃ es, w.Wrote (f.act e s w).2 (.act f.depth f.context.address e :: es) ∧ Quiet es := by
  have hw := World.Wrote.write w (.act f.depth f.context.address e)
  cases e with
  | selfDestruct b =>
    let balance := w.ledger.balance f.context.address
    refine ⟨[.event (.selfDestruct f.context.address b balance)], hw.trans (.write _ _), ?_⟩
    exact .singleton ⟨rfl, rfl⟩
  | _ => exact ⟨[], hw, .nil⟩

end Frame

namespace Machine

variable {β : Type} {m : Machine}

theorem Deposited.wrote {p : Pending} {h h' : Halt} {dep : Deposit} {w w' : World β}
    (hd : m.Deposited p h w h' dep w') : ∃ es, w.Wrote w' es ∧ Quiet es := by
  cases hd with
  | nothing => exact ⟨[], .refl w, .nil⟩
  | failed => exact ⟨_, World.Wrote.write w _, .singleton (Entry.idle_remark _)⟩
  | stored => exact ⟨[], .of_diary_eq rfl, .nil⟩

variable [Store β]

/-- A message that gets a checkpoint is announced, whatever becomes of it. -/
theorem Received.wrote_announce {d : Nat} {t : Terms} {k : Message} {w w' : World β}
    {a : Admission} (h : m.Received d t k w a w') :
    w.Wrote w' [.event (k.event d (k.context t w.ledger)),
      .remark (k.opened d (k.context t w.ledger))] := by
  have hw : w.Wrote (w.announce d (k.context t w.ledger) k) [.event _, .remark _] :=
    (World.Wrote.write w _).trans (World.Wrote.write _ _)
  cases h with
  | unpaid => exact hw
  | idle => exact hw
  | waiting => exact hw

theorem Received.wrote {d : Nat} {t : Terms} {k : Message} {w w' : World β} {a : Admission}
    (h : m.Received d t k w a w') : ∃ es, w.Wrote w' es ∧ Quiet es := by
  refine ⟨_, h.wrote_announce, ?_⟩
  simp [Quiet]

theorem wrote_refuse (d : Nat) (t : Terms) (k : Message) (w : World β) :
    ∃ es, w.Wrote (refuse d t k w).2 es ∧ Quiet es := by
  have hw := World.Wrote.write w (.event (k.event d (k.context t w.ledger)))
  unfold refuse
  dsimp only
  split
  · split
    · next e _ =>
      refine ⟨_, hw.trans ((World.Wrote.write _ (.remark (.endowmentKept e))).trans
        (.write _ (.remark (.tooDeep d)))), ?_⟩
      simp [Quiet]
    · refine ⟨_, hw.trans (.write _ (.remark (.tooDeep d))), ?_⟩
      simp [Quiet]
  · refine ⟨_, hw.trans (.write _ (.remark (.tooDeep d))), ?_⟩
    simp [Quiet]

end Machine

theorem World.wrote_closed {β : Type} (w : World β) (d : Nat) (o : Outcome) :
    ∃ tail, w.Wrote (w.closed d o) tail ∧ Closing d o.exception tail := by
  unfold closed
  cases o.exception with
  | none =>
    refine ⟨[.remark (.committed d)] ++ [.event (.exit d none o.gas o.output)], ?_,
      ⟨_, _, _, .singleton (Entry.idle_remark _), rfl⟩⟩
    exact (Wrote.write (w.edit (·.pop .commit)) _).trans (.write _ _)
  | some e =>
    refine ⟨[.remark (.excepted d e)] ++ [.event (.exit d (some e) o.gas o.output)], ?_,
      ⟨_, _, _, .singleton (Entry.idle_remark _), rfl⟩⟩
    exact (Wrote.write (w.edit (·.pop .revert)) _).trans (.write _ _)

end Transact
