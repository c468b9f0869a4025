import TokenKeeper.Proofs.World.Hand
import TokenKeeper.Proofs.World.Preserved
/-! One scheduler by itself: its runs, what its pool's worker has of them, and the time. Whatever
happens in a world is for each scheduler one of a few steps. -/
namespace TokenKeeper

namespace Task

def number? : Task → Option Nat
  | begin submission | delayed submission _ | pending submission _ => some submission.number
  | _ => none

/-- The place of the run, once it has begun. -/
def place? : Task → Option Nat
  | script run _ | fetch run _ | call run .. | conclude run .. => some run.place
  | _ => none

end Task

def Worker.Stage.of (s : SchedulerId) : Worker.Stage Task → Worker.Stage Task
  | .busy task => if task.scheduler? = some s then .busy task else .between
  | .held task t => if task.scheduler? = some s then .held task t else .between
  | _ => .between

structure Docket where
  now : Instant
  scheduler : Scheduler
  /-- The task of the scheduler that the worker is at. -/
  hand : Worker.Stage Task
  /-- Its tasks that the worker is not at. -/
  others : Multiset Task
  /-- Whether the pool closes. -/
  closing : Bool
  /-- The next call of the issuer, if the scheduler has one to call. -/
  upcoming : Call

def Docket.tasks (x : Docket) : Multiset Task := x.hand.tasks + x.others

/-- What a step of a task leaves in its place, and what becomes of the scheduler. -/
inductive Docket.Turn (x : Docket) : Task → Multiset Task → Scheduler → Call → Prop where
  | enter {task submission next} (begins : task.Begins x.now x.scheduler.isShutDown submission)
      (place : next.place? = some x.scheduler.runs.length) (number : next.number? = none) :
      Turn x task {next} (x.scheduler.enter submission.number x.now) x.upcoming
  | enterDropped {task submission}
      (begins : task.Begins x.now x.scheduler.isShutDown submission) :
      Turn x task 0
        ((x.scheduler.enter submission.number x.now).endRun x.scheduler.runs.length
          (.returned x.now)) x.upcoming
  | abandon {task submission due} (waits : task.awaits? x.now = some (submission, due))
      (off : x.scheduler.isShutDown = true) :
      Turn x task 0 (x.scheduler.abandon submission.number) x.upcoming
  | wait {task submission due} (waits : task.awaits? x.now = some (submission, due)) :
      Turn x task {.pending submission due} x.scheduler x.upcoming
  | pause {task pause still next due} (pauses : task.pausing? = some (pause, still, next))
      (hd : pause.due? x.now = some due) :
      Turn x task {still (.till due)} x.scheduler x.upcoming
  | resume {task pause still next} (pauses : task.pausing? = some (pause, still, next))
      (lapsed : ∀ due, pause.due? x.now = some due → due ≤ x.now) :
      Turn x task {next} x.scheduler x.upcoming
  | leave {run} :
      Turn x (.script run []) 0 (x.scheduler.endRun run.place (.returned x.now)) x.upcoming
  | panic {run rest} :
      Turn x (.script run (.panic :: rest)) 0 (x.scheduler.endRun run.place .panicked) x.upcoming
  | schedule {run delay rest} (on : x.scheduler.isShutDown = false) :
      Turn x (.script run (.schedule delay :: rest))
        ({.delayed ⟨run.scheduler, x.scheduler.accepted⟩ delay} + {.script run rest})
        x.scheduler.accept x.upcoming
  | start {run rest} (on : x.scheduler.isShutDown = false) (first : x.scheduler.started = false) :
      Turn x (.script run (.start :: rest))
        ({.begin ⟨run.scheduler, x.scheduler.accepted⟩} + {.script run rest})
        { x.scheduler.accept with started := true } x.upcoming
  | shutdown {run rest} :
      Turn x (.script run (.shutdown :: rest)) {.script run rest} x.scheduler.letGo x.upcoming
  | inVain {run action rest}
      (kind : action = .start ∨ action = .shutdown ∨ ∃ delay, action = .schedule delay) :
      Turn x (.script run (action :: rest)) {.script run rest} x.scheduler x.upcoming
  /-- The runs of a cache come one at a time. -/
  | call {run c upcoming} (alone : x.others = 0) :
      Turn x (.fetch run c) {.call run c x.upcoming.pauses x.upcoming.reply} x.scheduler upcoming
  | endCall {run c reply} :
      Turn x (.call run c [] reply) {.conclude run c reply} x.scheduler x.upcoming
  | conclude {run c reply delay} (on : x.scheduler.isShutDown = false) :
      Turn x (.conclude run c reply) {.delayed ⟨run.scheduler, x.scheduler.accepted⟩ delay}
        (x.scheduler.accept.endRun run.place (.returned x.now)) x.upcoming
  | concludeLast {run c reply} (off : x.scheduler.isShutDown = true) :
      Turn x (.conclude run c reply) 0 (x.scheduler.endRun run.place (.returned x.now)) x.upcoming

structure Docket.Leaves (x : Docket) (task : Task) (added : Multiset Task)
    (hand : Worker.Stage Task) (others : Multiset Task) : Prop where
  put : ∃ put, added = hand.tasks + put ∧ Left x.closing others (put + x.others)
  free : ∀ next t, hand = .held next t →
    ∃ length still, task.pausing? = some (.hold length, still, next) ∧ t = x.now + length
  holds : ∀ length still next, task.pausing? = some (.hold length, still, next) → length ≠ 0 →
    hand = .held next (x.now + length)

structure Docket.Works (x : Docket) (hand : Worker.Stage Task) (others : Multiset Task) :
    Prop where
  tasks : Left x.closing (hand.tasks + others) (x.hand.tasks + x.others)
  others : others ≤ x.others
  free : ∀ task t, hand = .held task t → x.hand = .held task t
  lets : ∀ task t, x.hand = .held task t → hand = x.hand ∨ hand = .busy task ∧ t ≤ x.now

/-- What happens to one scheduler. `held` says which of its tasks may hold the worker, and of none
whether a task of somebody else may. -/
inductive Docket.Step (held : Option Task → Prop) : Docket → Docket → Prop where
  /-- No time passes while the worker is busy, or before a task can go on. -/
  | tick {x t} (later : x.now ≤ t) (rests : ∀ task, x.hand ≠ .busy task)
      (free : ∀ task free, x.hand = .held task free → x.now ≤ free ∧ t ≤ free)
      (due : held none ∨ (∃ task free, x.hand = .held task free ∧ held (some task)) ∨
        ∀ task ∈ x.others, ∃ due, task.due? = some due ∧ x.now < due ∧ t ≤ due) :
      Step held x { x with now := t }
  | turn {x task added scheduler upcoming hand others} (mine : x.hand = .busy task)
      (turn : x.Turn task added scheduler upcoming) (leaves : x.Leaves task added hand others) :
      Step held x ⟨x.now, scheduler, hand, others, x.closing, upcoming⟩
  | work {x hand others} (works : x.Works hand others) :
      Step held x { x with hand := hand, others := others }
  | start {x s others} (on : x.scheduler.isShutDown = false) (first : x.scheduler.started = false)
      (left : Left x.closing others ({.begin ⟨s, x.scheduler.accepted⟩} + x.others)) :
      Step held x { x with
        scheduler := { x.scheduler.accept with started := true }, others := others }
  | schedule {x s delay others} (on : x.scheduler.isShutDown = false)
      (left : Left x.closing others ({.delayed ⟨s, x.scheduler.accepted⟩ delay} + x.others)) :
      Step held x { x with scheduler := x.scheduler.accept, others := others }
  | shut {x} : Step held x { x with scheduler := x.scheduler.letGo }
  | drop {x} : Step held x { x with scheduler := { x.scheduler with dropped := true } }
  /-- The pool closes only when the scheduler has let go of it. -/
  | close {x} (off : x.scheduler.isShutDown = true) : Step held x { x with closing := true }

variable {held held' : Option Task → Prop} {x x' : Docket}

theorem Docket.Step.mono (step : Docket.Step held x x') (h : ∀ holder, held holder → held' holder) :
    Docket.Step held' x x' := by
  cases step with
  | tick later rests free due =>
    refine .tick later rests free (due.imp (h none) (Or.imp_left ?_))
    exact fun ⟨task, free, hand, holds⟩ => ⟨task, free, hand, h _ holds⟩
  | turn mine turn leaves => exact .turn mine turn leaves
  | work works => exact .work works
  | start on first left => exact .start on first left
  | schedule on left => exact .schedule on left
  | shut => exact .shut
  | drop => exact .drop
  | close off => exact .close off

abbrev Docket.Anyone : Option Task → Prop := fun _ => True

abbrev Docket.Later (held : Option Task → Prop) : Docket → Docket → Prop :=
  Relation.ReflTransGen (Docket.Step held)

theorem Docket.Later.mono (later : Docket.Later held x x')
    (h : ∀ holder, held holder → held' holder) : Docket.Later held' x x' :=
  Relation.ReflTransGen.mono (fun _ _ step => step.mono h) _ _ later

end TokenKeeper
