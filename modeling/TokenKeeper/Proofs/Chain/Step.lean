import TokenKeeper.Proofs.World.Live
/-! One cache by itself: its scheduler, its live runs, and the time. Whatever happens in a world is
for each cache one of a few steps. -/
namespace TokenKeeper

structure Chain where
  now : Instant
  cache : Cache
  scheduler : Scheduler
  /-- The runs of the scheduler that are submitted, waiting or going on. -/
  live : Multiset Task

/-- What a step of a live run leaves in its place, and what becomes of scheduler and cache. -/
inductive Chain.Turn (x : Chain) : Task → Multiset Task → Scheduler → Cache → Prop where
  | enter {task submission c} (begins : task.Begins x.now x.scheduler.isShutDown submission)
      (kept : x.cache.dropped = false) :
      Turn x task {.fetch ⟨submission.scheduler, x.scheduler.runs.length⟩ c}
        (x.scheduler.enter submission.number x.now) x.cache
  | enterDropped {task submission} (begins : task.Begins x.now x.scheduler.isShutDown submission)
      (dropped : x.cache.dropped = true) :
      Turn x task 0
        ((x.scheduler.enter submission.number x.now).endRun x.scheduler.runs.length
          (.returned x.now)) x.cache
  | abandon {task submission due} (waits : task.awaits? x.now = some (submission, due))
      (off : x.scheduler.isShutDown = true) :
      Turn x task 0 (x.scheduler.abandon submission.number) x.cache
  | wait {task submission due} (waits : task.awaits? x.now = some (submission, due))
      (on : x.scheduler.isShutDown = false) :
      Turn x task {.pending submission due} x.scheduler x.cache
  | call {run c} :
      Turn x (.fetch run c)
        {.call run c (x.cache.issuer x.cache.attempts.length).pauses
          (x.cache.issuer x.cache.attempts.length).reply} x.scheduler (x.cache.beginCall x.now)
  | pause {run c pause rest reply due} (hd : pause.due? x.now = some due) :
      Turn x (.call run c (pause :: rest) reply) {.call run c (.till due :: rest) reply}
        x.scheduler x.cache
  | resume {run c pause rest reply} (lapsed : ∀ due, pause.due? x.now = some due → due ≤ x.now) :
      Turn x (.call run c (pause :: rest) reply) {.call run c rest reply} x.scheduler x.cache
  | endCall {run c reply} :
      Turn x (.call run c [] reply) {.conclude run c reply} x.scheduler
        (x.cache.endCall reply x.now)
  | conclude {run c reply} (on : x.scheduler.isShutDown = false) :
      Turn x (.conclude run c reply)
        {.delayed ⟨run.scheduler, x.scheduler.accepted⟩ (x.cache.config.delayAfter reply)}
        (x.scheduler.accept.endRun run.place (.returned x.now))
        (x.cache.conclude x.cache.config reply x.now)
  | concludeLast {run c reply} (off : x.scheduler.isShutDown = true) :
      Turn x (.conclude run c reply) 0 (x.scheduler.endRun run.place (.returned x.now))
        (x.cache.conclude x.cache.config reply x.now)

namespace Chain.Turn
variable {x : Chain} {task : Task} {added : Multiset Task} {scheduler : Scheduler} {cache : Cache}

theorem isShutDown (turn : x.Turn task added scheduler cache) :
    scheduler.isShutDown = x.scheduler.isShutDown := by
  cases turn <;> rfl

theorem follows (turn : x.Turn task added scheduler cache) : x.cache.Follows cache := by
  cases turn with
  | conclude | concludeLast => exact .conclude x.cache _ _ _
  | _ => exact ⟨rfl, rfl, rfl⟩

end Chain.Turn

/-- What happens to one cache, if it is not a matter of other caches only. -/
inductive Chain.Step (held : Prop) : Chain → Chain → Prop where
  /-- Unless the worker is held, no time passes before a live run can go on. -/
  | tick {x t} (later : x.now ≤ t)
      (due : held ∨ ∀ task ∈ x.live, ∃ due, task.due? = some due ∧ x.now < due ∧ t ≤ due) :
      Step held x { x with now := t }
  | turn {x task added rest scheduler cache} (live : x.live = {task} + rest)
      (turn : x.Turn task added scheduler cache) :
      Step held x ⟨x.now, cache, scheduler, added + rest⟩
  /-- A pool that closes takes tasks with it. -/
  | lose {x live} (off : x.scheduler.isShutDown = true) (le : live ≤ x.live) :
      Step held x { x with live := live }
  | shut {x} : Step held x { x with scheduler := x.scheduler.letGo }
  | drop {x} (off : x.scheduler.isShutDown = true) :
      Step held x { x with cache := { x.cache with dropped := true } }

theorem Chain.Step.mono {held held' : Prop} {x x' : Chain} (step : Chain.Step held x x')
    (h : held → held') : Chain.Step held' x x' := by
  cases step with
  | tick later due => exact .tick later (due.imp_left h)
  | turn live turn => exact .turn live turn
  | lose off le => exact .lose off le
  | shut => exact .shut
  | drop off => exact .drop off

abbrev Chain.Later (held : Prop) : Chain → Chain → Prop := Relation.ReflTransGen (Chain.Step held)

theorem Chain.Later.mono {held held' : Prop} {x x' : Chain} (later : Chain.Later held x x')
    (h : held → held') : Chain.Later held' x x' :=
  Relation.ReflTransGen.mono (fun _ _ step => step.mono h) _ _ later

theorem Chain.Step.follows {held : Prop} {x x' : Chain} (step : Chain.Step held x x') :
    x.cache.Follows x'.cache := by
  cases step with
  | turn _ turn => exact turn.follows
  | _ => exact ⟨rfl, rfl, rfl⟩

theorem Chain.Later.follows {held : Prop} {x x' : Chain} (later : Chain.Later held x x') :
    x.cache.Follows x'.cache := by
  induction later with
  | refl => exact .refl x.cache
  | tail _ step ih => exact ih.trans step.follows

/-- The chain is what the world shows of the cache `c`. -/
structure World.Shows (w : World) (c : CacheId) (x : Chain) : Prop where
  cache : w.caches[c]? = some x.cache
  scheduler : w.schedulers[x.cache.scheduler]? = some x.scheduler
  now : x.now = w.now
  live : x.live = w.live x.cache.scheduler

namespace World
variable {w : World} {c : CacheId} {x : Chain}

theorem Sound.shows (h : w.Sound) {cache : Cache} (hc : w.caches[c]? = some cache) :
    ∃ x, w.Shows c x ∧ x.cache = cache := by
  obtain ⟨scheduler, hs, -⟩ := h.caches c cache hc
  exact ⟨⟨w.now, cache, scheduler, w.live cache.scheduler⟩, ⟨hc, hs, rfl, rfl⟩, rfl⟩

theorem Shows.unique {x' : Chain} (shows : w.Shows c x) (shows' : w.Shows c x') : x = x' := by
  obtain ⟨now, cache, scheduler, live⟩ := x
  obtain ⟨now', cache', scheduler', live'⟩ := x'
  obtain rfl := Option.some.inj (shows.cache.symm.trans shows'.cache)
  obtain rfl := Option.some.inj (shows.scheduler.symm.trans shows'.scheduler)
  obtain rfl := shows.now.trans shows'.now.symm
  obtain rfl := shows.live.trans shows'.live.symm
  rfl

theorem Shows.job (shows : w.Shows c x) (h : w.Sound) : x.scheduler.job = .refresh c := by
  obtain ⟨scheduler, hs, job⟩ := h.caches c x.cache shows.cache
  rwa [Option.some.inj (shows.scheduler.symm.trans hs)]

theorem Shows.only (shows : w.Shows c x) (h : w.Sound) {c' : CacheId} {cache : Cache}
    (hc : w.caches[c']? = some cache) (same : cache.scheduler = x.cache.scheduler) : c' = c :=
  h.only_cache shows.cache hc same

theorem Shows.isCalledOff (shows : w.Shows c x) {submission : Submission}
    (same : submission.scheduler = x.cache.scheduler) :
    w.isCalledOff submission = x.scheduler.isShutDown := by
  unfold World.isCalledOff
  rw [same, shows.scheduler]
  rfl

end World

namespace Deed
variable {w : World} {c : CacheId} {x : Chain} {task : Task} {added : Multiset Task}
  {schedulers : List Scheduler} {caches : List Cache}

theorem turn (deed : Deed w task added schedulers caches) (h : w.Sound) (shows : w.Shows c x)
    (fits : w.Fits task) (mine : task.scheduler? = some x.cache.scheduler) :
    ∃ scheduler cache, schedulers[x.cache.scheduler]? = some scheduler ∧
      caches[c]? = some cache ∧ x.Turn task added scheduler cache := by
  have job := shows.job h
  have now := shows.now
  have here {s : SchedulerId} {scheduler : Scheduler} (hs : w.schedulers[s]? = some scheduler)
      (same : s = x.cache.scheduler) : scheduler = x.scheduler := by
    rw [same, shows.scheduler] at hs
    exact (Option.some.inj hs).symm
  have onScheduler {s : SchedulerId} (same : s = x.cache.scheduler) (f : Scheduler → Scheduler) :
      (w.schedulers.modify s f)[x.cache.scheduler]? = some (f x.scheduler) := by
    rw [same, List.getElem?_modify_eq, shows.scheduler]
    rfl
  have onCache (f : Cache → Cache) : (w.caches.modify c f)[c]? = some (f x.cache) := by
    rw [List.getElem?_modify_eq, shows.cache]
    rfl
  have loads {run : RunId} {c' : CacheId} (fits : w.Fits (.fetch run c'))
      (same : run.scheduler = x.cache.scheduler) : c' = c := by
    obtain ⟨_, cache, -, -, hc, there⟩ := fits
    exact shows.only h hc (there.trans same)
  have notScript {run : RunId} {actions : List Action} (fits : w.Fits (.script run actions))
      (same : run.scheduler = x.cache.scheduler) : False := by
    obtain ⟨scheduler, program, hs, is⟩ := fits
    rw [here hs same, job] at is
    cases is
  cases deed with
  | enterScript begins hs is =>
    rw [here hs (Option.some.inj (begins.scheduler?.symm.trans mine)), job] at is
    cases is
  | enterRefresh begins hs is kept =>
    have same := Option.some.inj (begins.scheduler?.symm.trans mine)
    obtain rfl := here hs same
    rw [job] at is
    cases is
    rw [shows.cache] at kept
    rw [shows.isCalledOff same, ← now] at begins
    exact ⟨_, _, onScheduler same _, shows.cache, now ▸ .enter begins kept⟩
  | enterDropped begins hs is dropped =>
    have same := Option.some.inj (begins.scheduler?.symm.trans mine)
    obtain rfl := here hs same
    rw [job] at is
    cases is
    rw [shows.cache] at dropped
    rw [shows.isCalledOff same, ← now] at begins
    exact ⟨_, _, onScheduler same _, shows.cache, now ▸ .enterDropped begins dropped⟩
  | abandon waits off =>
    have same := Option.some.inj ((Task.awaits?_scheduler waits).symm.trans mine)
    rw [shows.isCalledOff same] at off
    exact ⟨_, _, onScheduler same _, shows.cache, .abandon (now ▸ waits) off⟩
  | wait waits on =>
    have same := Option.some.inj ((Task.awaits?_scheduler waits).symm.trans mine)
    rw [shows.isCalledOff same] at on
    exact ⟨_, _, shows.scheduler, shows.cache, .wait (now ▸ waits) on⟩
  | pause pauses hd =>
    unfold Task.pausing? at pauses
    split at pauses <;> cases pauses
    · exact (notScript fits (Option.some.inj mine)).elim
    · exact ⟨_, _, shows.scheduler, shows.cache, .pause (now ▸ hd)⟩
    · cases mine
  | resume pauses lapsed =>
    unfold Task.pausing? at pauses
    split at pauses <;> cases pauses
    · exact (notScript fits (Option.some.inj mine)).elim
    · exact ⟨_, _, shows.scheduler, shows.cache, .resume (now ▸ lapsed)⟩
    · cases mine
  | leave | panic | schedule | start | shutdown | inVain =>
    exact (notScript fits (Option.some.inj mine)).elim
  | call hc =>
    obtain rfl := loads fits (Option.some.inj mine)
    obtain rfl := Option.some.inj (shows.cache.symm.trans hc)
    exact ⟨_, _, shows.scheduler, onCache _, now ▸ .call⟩
  | endCall =>
    obtain rfl := loads fits (Option.some.inj mine)
    exact ⟨_, _, shows.scheduler, onCache _, now ▸ .endCall⟩
  | conclude hc hs on =>
    obtain rfl := loads fits (Option.some.inj mine)
    obtain rfl := Option.some.inj (shows.cache.symm.trans hc)
    obtain rfl := here hs (Option.some.inj mine)
    exact ⟨_, _, onScheduler (Option.some.inj mine) _, onCache _, now ▸ .conclude on⟩
  | concludeLast hc hs off =>
    obtain rfl := loads fits (Option.some.inj mine)
    obtain rfl := Option.some.inj (shows.cache.symm.trans hc)
    obtain rfl := here hs (Option.some.inj mine)
    exact ⟨_, _, onScheduler (Option.some.inj mine) _, onCache _, now ▸ .concludeLast off⟩
  | answer | leaveGuest => cases mine

theorem other (deed : Deed w task added schedulers caches) (shows : w.Shows c x)
    (fits : w.Fits task) (foreign : task.scheduler? ≠ some x.cache.scheduler) :
    schedulers[x.cache.scheduler]? = w.schedulers[x.cache.scheduler]? ∧
      caches[c]? = w.caches[c]? := by
  have onScheduler {s : SchedulerId} (f : Scheduler → Scheduler)
      (elsewhere : some s ≠ some x.cache.scheduler) :
      (w.schedulers.modify s f)[x.cache.scheduler]? = w.schedulers[x.cache.scheduler]? :=
    List.getElem?_modify_ne _ _ fun same => elsewhere (congrArg some same)
  have onCache {run : RunId} {c' : CacheId} (f : Cache → Cache) (fits : w.Fits (.fetch run c'))
      (elsewhere : some run.scheduler ≠ some x.cache.scheduler) :
      (w.caches.modify c' f)[c]? = w.caches[c]? := by
    refine List.getElem?_modify_ne _ _ fun same => elsewhere ?_
    obtain ⟨_, cache, -, -, hc, there⟩ := fits
    rw [same, shows.cache] at hc
    rw [← there, Option.some.inj hc]
  cases deed with
  | enterScript begins | enterRefresh begins | enterDropped begins =>
    exact ⟨onScheduler _ (begins.scheduler? ▸ foreign), rfl⟩
  | leave | panic | schedule | start | shutdown => exact ⟨onScheduler _ foreign, rfl⟩
  | abandon waits => exact ⟨onScheduler _ (Task.awaits?_scheduler waits ▸ foreign), rfl⟩
  | wait | pause | resume | inVain | answer | leaveGuest => exact ⟨rfl, rfl⟩
  | call | endCall => exact ⟨rfl, onCache _ fits foreign⟩
  | conclude | concludeLast => exact ⟨onScheduler _ foreign, onCache _ fits foreign⟩

end Deed
end TokenKeeper
