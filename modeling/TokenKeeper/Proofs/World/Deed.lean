import TokenKeeper.Proofs.Worker.Sound
import TokenKeeper.World.Work
/-! What one step of a task does: which tasks take its place, and how schedulers and caches change.
Everything that is proved about runs goes back to these cases. -/
namespace TokenKeeper

def Pause.due? (now : Instant) : Pause → Option Instant
  | rest length => some (now.afterRest length)
  | till due => some due
  | hold _ => none

namespace Task

def scheduler? : Task → Option SchedulerId
  | begin submission | delayed submission _ | pending submission _ => some submission.scheduler
  | script run _ | fetch run _ | call run .. | conclude run .. => some run.scheduler
  | inquiry | guest _ => none

def awaits? (now : Instant) : Task → Option (Submission × Instant)
  | delayed submission delay => some (submission, now.afterRest delay)
  | pending submission due => some (submission, due)
  | _ => none

def pausing? : Task → Option (Pause × (Pause → Task) × Task)
  | script run (.pause pause :: rest) =>
    some (pause, fun pause => script run (.pause pause :: rest), script run rest)
  | call run c (pause :: rest) reply =>
    some (pause, fun pause => call run c (pause :: rest) reply, call run c rest reply)
  | guest (pause :: rest) => some (pause, fun pause => guest (pause :: rest), guest rest)
  | _ => none

/-- The task is the beginning of the run: at once, or because its delay is over and it has not been
called off. -/
inductive Begins (now : Instant) (off : Bool) : Task → Submission → Prop where
  | atOnce {submission} : Begins now off (.begin submission) submission
  | waited {task submission due} (waits : task.awaits? now = some (submission, due))
      (on : off = false) (lapsed : due ≤ now) : Begins now off task submission

end Task

namespace Scheduler

def enter (scheduler : Scheduler) (number : Nat) (now : Instant) : Scheduler :=
  { scheduler with runs := scheduler.runs ++ [⟨number, now, none⟩] }

def endRun (scheduler : Scheduler) (place : Nat) (ending : Ending) : Scheduler :=
  { scheduler with runs := scheduler.runs.modify place fun r => { r with ending := some ending } }

def abandon (scheduler : Scheduler) (number : Nat) : Scheduler :=
  { scheduler with abandoned := number :: scheduler.abandoned }

def accept (scheduler : Scheduler) : Scheduler :=
  { scheduler with accepted := scheduler.accepted + 1 }

def letGo (scheduler : Scheduler) : Scheduler := { scheduler with pool := none }

theorem isShutDown_iff {scheduler : Scheduler} :
    scheduler.isShutDown = true ↔ scheduler.pool = none := Option.isNone_iff_eq_none

theorem not_isShutDown_iff {scheduler : Scheduler} :
    scheduler.isShutDown = false ↔ ∃ p, scheduler.pool = some p := by
  unfold isShutDown
  cases scheduler.pool <;> simp

end Scheduler

def Config.delayAfter (config : Config) (reply : Reply) : Span :=
  match reply.token with
  | .ok (_, lifetime) => config.refreshDelay lifetime
  | .error _ => config.retryDelay

namespace Cache

def beginCall (cache : Cache) (now : Instant) : Cache :=
  { cache with attempts := { began := now } :: cache.attempts }

def endCall (cache : Cache) (reply : Reply) (now : Instant) : Cache :=
  cache.onLatest fun attempt => { attempt with ended := some (now, reply) }

def takeUp (cache : Cache) (config : Config) (reply : Reply) (now : Instant) : Cache :=
  match reply.token with
  | .ok (token, lifetime) => cache.publish (config.issue token lifetime now)
  | .error _ => cache

def conclude (cache : Cache) (config : Config) (reply : Reply) (now : Instant) : Cache :=
  (cache.takeUp config reply now).onLatest fun attempt => { attempt with concluded := some now }

theorem onLatest_length (cache : Cache) (f : Attempt → Attempt) :
    (cache.onLatest f).attempts.length = cache.attempts.length := List.length_modify ..

theorem conclude_length (cache : Cache) (config : Config) (reply : Reply) (now : Instant) :
    (cache.conclude config reply now).attempts.length = cache.attempts.length := by
  unfold conclude takeUp
  split <;> exact onLatest_length _ _

end Cache

/-- What a step of a task in the world `w` leaves: the tasks in its place, and the schedulers and
caches as they are then. -/
inductive Deed (w : World) : Task → Multiset Task → List Scheduler → List Cache → Prop where
  | enterScript {task submission scheduler program}
      (begins : task.Begins w.now (w.isCalledOff submission) submission)
      (hs : w.schedulers[submission.scheduler]? = some scheduler)
      (job : scheduler.job = .script program) :
      Deed w task
        {.script ⟨submission.scheduler, scheduler.runs.length⟩ (program scheduler.runs.length)}
        (w.schedulers.modify submission.scheduler (·.enter submission.number w.now)) w.caches
  | enterRefresh {task submission scheduler c}
      (begins : task.Begins w.now (w.isCalledOff submission) submission)
      (hs : w.schedulers[submission.scheduler]? = some scheduler)
      (job : scheduler.job = .refresh c) (kept : w.caches[c]?.any (·.dropped) = false) :
      Deed w task {.fetch ⟨submission.scheduler, scheduler.runs.length⟩ c}
        (w.schedulers.modify submission.scheduler (·.enter submission.number w.now)) w.caches
  /-- A run of a dropped cache ends as it begins. -/
  | enterDropped {task submission scheduler c}
      (begins : task.Begins w.now (w.isCalledOff submission) submission)
      (hs : w.schedulers[submission.scheduler]? = some scheduler)
      (job : scheduler.job = .refresh c) (dropped : w.caches[c]?.any (·.dropped) = true) :
      Deed w task 0
        (w.schedulers.modify submission.scheduler fun scheduler' =>
          (scheduler'.enter submission.number w.now).endRun scheduler.runs.length
            (.returned w.now)) w.caches
  | abandon {task submission due} (waits : task.awaits? w.now = some (submission, due))
      (off : w.isCalledOff submission = true) :
      Deed w task 0 (w.schedulers.modify submission.scheduler (·.abandon submission.number))
        w.caches
  | wait {task submission due} (waits : task.awaits? w.now = some (submission, due))
      (on : w.isCalledOff submission = false) :
      Deed w task {.pending submission due} w.schedulers w.caches
  | pause {task pause still next due} (pauses : task.pausing? = some (pause, still, next))
      (hd : pause.due? w.now = some due) :
      Deed w task {still (.till due)} w.schedulers w.caches
  | resume {task pause still next} (pauses : task.pausing? = some (pause, still, next))
      (lapsed : ∀ due, pause.due? w.now = some due → due ≤ w.now) :
      Deed w task {next} w.schedulers w.caches
  | leave {run} :
      Deed w (.script run []) 0
        (w.schedulers.modify run.scheduler (·.endRun run.place (.returned w.now))) w.caches
  | panic {run rest} :
      Deed w (.script run (.panic :: rest)) 0
        (w.schedulers.modify run.scheduler (·.endRun run.place .panicked)) w.caches
  | schedule {run delay rest scheduler} (hs : w.schedulers[run.scheduler]? = some scheduler)
      (on : scheduler.isShutDown = false) (kept : scheduler.dropped = false) :
      Deed w (.script run (.schedule delay :: rest))
        ({.delayed ⟨run.scheduler, scheduler.accepted⟩ delay} + {.script run rest})
        (w.schedulers.modify run.scheduler (·.accept)) w.caches
  | start {run rest scheduler} (hs : w.schedulers[run.scheduler]? = some scheduler)
      (on : scheduler.isShutDown = false) (kept : scheduler.dropped = false)
      (first : scheduler.started = false) :
      Deed w (.script run (.start :: rest))
        ({.begin ⟨run.scheduler, scheduler.accepted⟩} + {.script run rest})
        (w.schedulers.modify run.scheduler fun scheduler =>
          { scheduler.accept with started := true }) w.caches
  | shutdown {run rest scheduler} (hs : w.schedulers[run.scheduler]? = some scheduler)
      (on : scheduler.isShutDown = false) (kept : scheduler.dropped = false) :
      Deed w (.script run (.shutdown :: rest)) {.script run rest}
        (w.schedulers.modify run.scheduler (·.letGo)) w.caches
  /-- Actions on a scheduler that is shut down, dropped or, for a start, started before. -/
  | inVain {run action rest scheduler} (hs : w.schedulers[run.scheduler]? = some scheduler)
      (kind : action = .start ∧ scheduler.started = true ∨
        (action = .start ∨ action = .shutdown ∨ ∃ delay, action = .schedule delay) ∧
          (scheduler.isShutDown = true ∨ scheduler.dropped = true)) :
      Deed w (.script run (action :: rest)) {.script run rest} w.schedulers w.caches
  | call {run c cache} (hc : w.caches[c]? = some cache) :
      Deed w (.fetch run c)
        {.call run c (cache.issuer cache.attempts.length).pauses
          (cache.issuer cache.attempts.length).reply}
        w.schedulers (w.caches.modify c (·.beginCall w.now))
  | endCall {run c reply} :
      Deed w (.call run c [] reply) {.conclude run c reply} w.schedulers
        (w.caches.modify c (·.endCall reply w.now))
  | conclude {run c reply cache scheduler} (hc : w.caches[c]? = some cache)
      (hs : w.schedulers[run.scheduler]? = some scheduler) (on : scheduler.isShutDown = false) :
      Deed w (.conclude run c reply)
        {.delayed ⟨run.scheduler, scheduler.accepted⟩ (cache.config.delayAfter reply)}
        (w.schedulers.modify run.scheduler fun scheduler =>
          scheduler.accept.endRun run.place (.returned w.now))
        (w.caches.modify c (·.conclude cache.config reply w.now))
  /-- After a shutdown no further load is asked for. -/
  | concludeLast {run c reply cache scheduler} (hc : w.caches[c]? = some cache)
      (hs : w.schedulers[run.scheduler]? = some scheduler) (off : scheduler.isShutDown = true) :
      Deed w (.conclude run c reply) 0
        (w.schedulers.modify run.scheduler (·.endRun run.place (.returned w.now)))
        (w.caches.modify c (·.conclude cache.config reply w.now))
  | answer : Deed w .inquiry 0 w.schedulers w.caches
  | leaveGuest : Deed w (.guest []) 0 w.schedulers w.caches

end TokenKeeper
