import Mathlib.Data.List.Forall2
import Transact.Proofs.Parallel

/-!
Watched code leaves a note of every answer it gets, so that the diary shows all that it
reads. Main statement: `Ledger.process_watched`, that watching changes nothing else.
-/

namespace Transact

def Entry.isNote : Entry → Bool
  | .note .. => true
  | _ => false

/-- All that happened, but for what the code noted. -/
def Diary.unnoted (d : Diary) : List Entry := d.toList.filter fun e => !e.isNote

/-- The program, with a note of every answer. -/
def Program.watched : Program → Program
  | .halt h => .halt h
  | .step i next => .step i next.watched
  | .read q next => .read q fun a => .note (.answer q a) (next a).watched
  | .act e next => .act e next.watched
  | .call c next => .call c fun o => .note (.called o) (next o).watched
  | .create endowment gas initCode next =>
    .create endowment gas initCode fun o => .note (.created o) (next o).watched
  | .note s next => .note s next.watched
  | .direct op next => .direct op fun a => .note (.ledger a) (next a).watched

def Interpreter.watched (i : Interpreter) : Interpreter := fun v => (i v).watched

theorem Program.Confined.watched {p : Program} (h : p.Confined) : p.watched.Confined := by
  induction p with
  | halt _ => trivial
  | step _ _ ih => exact ih h
  | read _ _ ih => exact fun a => ih a (h a)
  | act _ _ ih => exact ih h
  | call _ _ ih => exact fun o => ih o (h o)
  | create _ _ _ _ ih => exact fun o => ih o (h o)
  | note _ _ ih => exact ih h
  | direct _ _ _ => exact h.elim

section

variable {β γ : Type} [Store β] [Store γ]

/-- Watched or not, a program does the same. -/
theorem Program.alike_watched {D : Diary → Diary → Prop} (hD : Diary.Appending D)
    (hnote : ∀ {d d' : Diary}, D d d' → ∀ depth x, D (d.push (.note depth x)) d') (p : Program) :
    p.watched.Alike D β γ p := by
  induction p with
  | halt h => exact .halt h
  | step i _ ih => exact .step hD i ih
  | read q _ ih => exact .read fun a => .note_left hnote (.answer q a) (ih a)
  | act e _ ih => exact .act hD e ih
  | call c _ ih => exact .call hD c fun o => .note_left hnote (.called o) (ih o)
  | create endowment gas initCode _ ih =>
    exact .create hD endowment gas initCode fun o => .note_left hnote (.created o) (ih o)
  | note x _ ih => exact .note hD x ih
  | direct _ _ ih => exact .direct fun a => .note_left hnote (.ledger a) (ih a)

theorem Interpreter.like_watched (i : Interpreter) :
    i.watched.Like (fun e => !e.isNote) β γ i := fun d₀ d₀' v =>
  (i v).alike_watched (Diary.Grown.appending d₀ d₀') fun h _ _ => h.push_left rfl

end

/-- The job, with its code watched. -/
def Job.watched (j : Job) : Job := j.under j.machine.interpreter.watched

theorem Job.Sound.watched {j : Job} (h : j.Sound) : j.watched.Sound :=
  ⟨fun v => (h.confined v).watched, h.refundable⟩

/-- The same reports, but for the interpreter and the notes. -/
structure Report.Unnoted (seen r : Report) : Prop where
  reply : seen.reply = r.reply
  execution : seen.execution.under r.execution.machine.interpreter = r.execution
  diary : seen.diary.unnoted = r.diary.unnoted

variable {β γ : Type} [Store β] [Store γ]

theorem Job.perform_watched (j : Job) {l l₁ : Ledger β} {l' : Ledger γ} (h : l.Alike l')
    {seen : Report} (hj : j.watched.perform l = .ok (seen, l₁)) :
    ∃ report l₁', j.perform l' = .ok (report, l₁') ∧ seen.Unnoted report ∧ l₁.Alike l₁' := by
  obtain ⟨report, l₁', hj', hlike, hl⟩ := j.watched.alike_perform (fun _ => rfl)
    j.machine.interpreter.like_watched h hj
  refine ⟨report, l₁', hj', ⟨hlike.reply, ?_, hlike.diary⟩, hl⟩
  rw [← hlike.execution]
  rfl

/-- Watched jobs report what the jobs themselves do, with the notes besides. -/
theorem Ledger.process_watched (jobs : List Job) {l k : Ledger β} {l' : Ledger γ}
    (h : l.Alike l') {seen : List Report}
    (hjobs : l.process (jobs.map .watched) = .ok (seen, k)) :
    ∃ reports k', l'.process jobs = .ok (reports, k') ∧
      List.Forall₂ Report.Unnoted seen reports ∧ k.Alike k' := by
  induction jobs generalizing l l' seen with
  | nil =>
    cases hjobs
    exact ⟨[], l', rfl, .nil, h⟩
  | cons j jobs ih =>
    obtain ⟨report, l₁, rest, hj, hrest, rfl⟩ := processWith_cons_eq_ok.mp hjobs
    obtain ⟨report', l₁', hj', hunnoted, hl⟩ := j.perform_watched h hj
    obtain ⟨reports, k', hrest', hall, hk⟩ := ih hl hrest
    exact ⟨report' :: reports, k', processWith_cons_eq_ok.mpr ⟨_, _, _, hj', hrest', rfl⟩,
      .cons hunnoted hall, hk⟩

end Transact
