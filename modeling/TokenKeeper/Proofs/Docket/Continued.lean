import TokenKeeper.Proofs.Docket.Accounts
import TokenKeeper.Proofs.World.Beside
/-! How a scheduler goes on. Its books agree with its tasks after every step, a run keeps how it has
ended, and after a shutdown nothing is accepted any more. -/
namespace TokenKeeper

structure Run.Continues (before after : Run) : Prop where
  submission : after.submission = before.submission
  began : after.began = before.began
  ending : ∀ ending, before.ending = some ending → after.ending = some ending

theorem Run.Continues.refl (run : Run) : run.Continues run := ⟨rfl, rfl, fun _ => id⟩

theorem Run.Continues.trans {first second third : Run} (h : first.Continues second)
    (h' : second.Continues third) : first.Continues third :=
  ⟨h'.submission.trans h.submission, h'.began.trans h.began,
    fun ending he => h'.ending ending (h.ending ending he)⟩

namespace Scheduler

/-- The scheduler later on. Nothing is taken back, and nothing is accepted after a shutdown. -/
structure Continues (before after : Scheduler) : Prop where
  started : before.started = true → after.started = true
  accepted : before.accepted ≤ after.accepted
  shut : before.isShutDown = true → after.isShutDown = true ∧
    after.accepted = before.accepted ∧ after.started = before.started
  abandoned : after.abandoned = before.abandoned ∨ after.isShutDown = true
  runs : Grows Run.Continues before.runs after.runs

namespace Continues
variable {scheduler : Scheduler}

theorem same {before after : Scheduler} (started : after.started = before.started)
    (accepted : after.accepted = before.accepted)
    (shut : before.isShutDown = true → after.isShutDown = true)
    (abandoned : after.abandoned = before.abandoned ∨ after.isShutDown = true)
    (runs : Grows Run.Continues before.runs after.runs) : before.Continues after :=
  ⟨fun h => started.trans h, accepted.ge, fun off => ⟨shut off, accepted, started⟩, abandoned, runs⟩

theorem refl (scheduler : Scheduler) : scheduler.Continues scheduler :=
  same rfl rfl id (.inl rfl) (.refl .refl _)

theorem trans {first second third : Scheduler} (h : first.Continues second)
    (h' : second.Continues third) : first.Continues third where
  started := h'.started ∘ h.started
  accepted := h.accepted.trans h'.accepted
  shut := fun off =>
    have ⟨off', accepted, started⟩ := h.shut off
    have ⟨off'', accepted', started'⟩ := h'.shut off'
    ⟨off'', accepted'.trans accepted, started'.trans started⟩
  abandoned := h'.abandoned.elim
    (fun same => h.abandoned.imp same.trans fun off => (h'.shut off).1) .inr
  runs := Grows.trans (R := Run.Continues) (fun _ _ _ h h' => h.trans h') h.runs h'.runs

theorem enter (scheduler : Scheduler) (number : Nat) (now : Instant) :
    scheduler.Continues (scheduler.enter number now) :=
  same rfl rfl id (.inl rfl) (.append .refl _ _)

theorem endRun {k : Nat} (goes : k ∈ scheduler.unended) (ending : Ending) :
    scheduler.Continues (scheduler.endRun k ending) := by
  refine same rfl rfl id (.inl rfl) (Pointwise.grows (.modify .refl fun run hr => ?_))
  obtain ⟨run', hr', open'⟩ := mem_unended.mp goes
  obtain rfl := Option.some.inj (hr.symm.trans hr')
  exact ⟨rfl, rfl, fun _ ended => by cases open'.symm.trans ended⟩

theorem abandon (off : scheduler.isShutDown = true) (number : Nat) :
    scheduler.Continues (scheduler.abandon number) :=
  same rfl rfl id (.inr off) (.refl .refl _)

theorem letGo (scheduler : Scheduler) : scheduler.Continues scheduler.letGo :=
  same rfl rfl (fun _ => rfl) (.inl rfl) (.refl .refl _)

theorem accept (on : scheduler.isShutDown = false) (started : Bool)
    (kept : scheduler.started = true → started = true) :
    scheduler.Continues { scheduler.accept with started := started } where
  started := kept
  accepted := Nat.le_succ _
  shut := fun off => by cases off.symm.trans on
  abandoned := .inl rfl
  runs := .refl .refl _

end Continues
end Scheduler

namespace Docket
variable {held : Option Task → Prop} {x x' : Docket}

open Scheduler (Continues)

abbrev Accounts (x : Docket) : Prop := x.scheduler.Accounts x.closing x.tasks

theorem Turn.continues {task : Task} {added : Multiset Task} {scheduler : Scheduler}
    {upcoming : Call} (turn : x.Turn task added scheduler upcoming)
    (goes : ∀ k, task.place? = some k → k ∈ x.scheduler.unended) :
    x.scheduler.Continues scheduler := by
  cases turn with
  | enter => exact .enter _ _ _
  | enterDropped =>
    refine (Continues.enter _ _ _).trans (.endRun ?_ _)
    simp [Scheduler.enter_unended]
  | abandon _ off => exact .abandon off _
  | leave | panic | concludeLast => exact .endRun (goes _ rfl) _
  | schedule on => exact .accept on _ id
  | start on => exact .accept on _ fun _ => rfl
  | shutdown => exact .letGo _
  | conclude on =>
    have accepts : x.scheduler.Continues x.scheduler.accept := .accept on _ id
    exact accepts.trans (.endRun (show _ ∈ x.scheduler.accept.unended from goes _ rfl) _)
  | wait | pause | resume | inVain | call | endCall => exact .refl _

theorem Step.continues (step : Docket.Step held x x') (h : x.Accounts) :
    x.scheduler.Continues x'.scheduler := by
  cases step with
  | turn mine turn =>
    refine turn.continues fun k place => h.goes ?_ place
    simp [tasks, mine, Worker.Stage.tasks]
  | start on => exact .accept on _ fun _ => rfl
  | schedule on => exact .accept on _ id
  | shut => exact .letGo _
  | drop => exact .same rfl rfl id (.inl rfl) (.refl .refl _)
  | tick | work | close => exact .refl _

/-- What a step of a task leaves, with all the other tasks. -/
theorem Leaves.left {task : Task} {added : Multiset Task} {hand : Worker.Stage Task}
    {others : Multiset Task} (leaves : x.Leaves task added hand others) :
    Left x.closing (hand.tasks + others) (added + x.others) := by
  obtain ⟨put, split, left⟩ := leaves.put
  rw [split, add_assoc]
  exact left.add_left _

theorem Accounts.step (h : x.Accounts) (step : Docket.Step held x x') : x'.Accounts := by
  have continues := step.continues h
  have abandoned : x'.scheduler.abandoned ≠ [] → x'.scheduler.isShutDown = true := fun some => by
    obtain same | off := continues.abandoned
    · exact (continues.shut (h.abandoned (same ▸ some))).1
    · exact off
  have shut : x.scheduler.isShutDown = true → x'.scheduler.isShutDown = true :=
    fun off => (continues.shut off).1
  cases step with
  | tick | drop => exact ⟨h.numbers, h.places, h.abandoned, h.lossy⟩
  | @turn task added scheduler upcoming hand others mine turn leaves =>
    have was : x.tasks = {task} + x.others := by rw [tasks, mine]; rfl
    refine h.exchange was (turn.balances fun k place => h.goes ?_ place) leaves.left abandoned shut
    simp [was]
  | work works =>
    exact h.exchange (zero_add _).symm ⟨rfl, rfl⟩ ((zero_add x.tasks).symm ▸ works.tasks) abandoned
      shut
  | start _ _ left | schedule _ left =>
    exact Scheduler.Accounts.accept h left rfl rfl rfl rfl rfl abandoned shut
  | shut => exact ⟨h.numbers, h.places, abandoned, fun _ => rfl⟩
  | close off =>
    exact ⟨⟨h.numbers.le, fun open' => by cases open'⟩, ⟨h.places.le, fun open' => by cases open'⟩,
      h.abandoned, fun _ => off⟩

theorem Fresh.accounts (fresh : x.Fresh) : x.Accounts := by
  have nothing : x.tasks = 0 := by rw [tasks, fresh.hand, fresh.others]; rfl
  constructor
  · apply Left.of_eq
    simp [nothing, Scheduler.settled_eq, fresh.runs, fresh.abandoned, fresh.accepted]
  · apply Left.of_eq
    simp [nothing, Scheduler.unended, fresh.runs]
  · simp [fresh.abandoned]
  · simp [fresh.closing]

/-- Along a run of a docket. -/
theorem Accounts.later (h : x.Accounts) (later : Docket.Later held x x') :
    x'.Accounts ∧ x.scheduler.Continues x'.scheduler := by
  induction later with
  | refl => exact ⟨h, .refl _⟩
  | tail _ step ih => exact ⟨ih.1.step step, ih.2.trans (step.continues ih.1)⟩

end Docket
end TokenKeeper
