import TokenKeeper.Proofs.World.Deed
/-! A step of a task changes the worker it runs on, the schedulers and the caches, and nothing else.
Which tasks it leaves is the same as what `Deed` says. -/
namespace TokenKeeper

def Notice.isElapsed : Notice → Bool
  | .waitElapsed _ => true
  | _ => false

structure Pool.Amid (before after : Pool) (added : Multiset Task) : Prop where
  identity : after.identity = before.identity
  registered : after.registered = before.registered
  handles : after.handles = before.handles
  worker : before.worker.Amid after.worker added

/-- A pool before and after a step of a task, which leaves the tasks `added` in its place. -/
structure Pool.Carries (before after : Pool) (added : Multiset Task) : Prop where
  identity : after.identity = before.identity
  registered : after.registered = before.registered
  handles : after.handles = before.handles
  active : after.worker.stage.isActive = true
  looked : after.worker.looked = before.worker.looked
  leaving : after.worker.leaving = before.worker.leaving
  closing : before.worker.closing = true → after.worker.closing = true
  due : ∀ r ∈ after.worker.resting, r ∈ before.worker.resting ∨ r.2.due? = some r.1
  /-- The worker is at one of them at most, and puts the rest away. -/
  hand : ∃ put, added = after.worker.stage.tasks + put ∧
    Left before.worker.closing after.worker.others (put + before.worker.others)

theorem Pool.Carries.tasks {before after : Pool} {added : Multiset Task}
    (h : before.Carries after added) :
    Left before.worker.closing after.worker.tasks (added + before.worker.others) := by
  obtain ⟨put, rfl, others⟩ := h.hand
  rw [add_assoc]
  exact others.add_left after.worker.stage.tasks

namespace World

def elapsed (w : World) : List (Instant × Notice) := w.log.filter (·.2.isElapsed)

section Note
variable (w : World) (notice : Notice)

@[simp] theorem note_now : (w.note notice).now = w.now := by unfold note; split <;> rfl

@[simp] theorem note_verbosity : (w.note notice).verbosity = w.verbosity := by
  unfold note; split <;> rfl

@[simp] theorem note_pools : (w.note notice).pools = w.pools := by unfold note; split <;> rfl

@[simp] theorem note_schedulers : (w.note notice).schedulers = w.schedulers := by
  unfold note; split <;> rfl

@[simp] theorem note_caches : (w.note notice).caches = w.caches := by unfold note; split <;> rfl

@[simp] theorem note_readers : (w.note notice).readers = w.readers := by unfold note; split <;> rfl

@[simp] theorem note_outage : (w.note notice).outage = w.outage := by unfold note; split <;> rfl

variable {notice} in
theorem note_elapsed (h : notice.isElapsed = false) : (w.note notice).elapsed = w.elapsed := by
  unfold note elapsed
  split
  · simp only [List.filter_cons, h, Bool.false_eq_true, if_false]
  · rfl

end Note

structure Apart (w w' : World) : Prop where
  now : w'.now = w.now
  verbosity : w'.verbosity = w.verbosity
  readers : w'.readers = w.readers
  outage : w'.outage = w.outage
  elapsed : w'.elapsed = w.elapsed

namespace Apart

theorem refl (w : World) : Apart w w := ⟨rfl, rfl, rfl, rfl, rfl⟩

theorem trans {first second third : World} (h : Apart first second) (h' : Apart second third) :
    Apart first third :=
  ⟨h'.now.trans h.now, h'.verbosity.trans h.verbosity, h'.readers.trans h.readers,
    h'.outage.trans h.outage, h'.elapsed.trans h.elapsed⟩

theorem note (w : World) {notice : Notice} (h : notice.isElapsed = false) :
    Apart w (w.note notice) :=
  ⟨w.note_now _, w.note_verbosity _, w.note_readers _, w.note_outage _, w.note_elapsed h⟩

end Apart

structure Amidst (w w' : World) (p : PoolId) (added : Multiset Task) : Prop where
  apart : Apart w w'
  pools : ∃ f, w'.pools = w.pools.modify p f ∧
    ∀ pool, w.pools[p]? = some pool → pool.Amid (f pool) added

structure Turned (w w' : World) (p : PoolId) (added : Multiset Task) : Prop where
  apart : Apart w w'
  pools : ∃ f, w'.pools = w.pools.modify p f ∧
    ∀ pool, w.pools[p]? = some pool → pool.Carries (f pool) added ∧
      ((f pool).worker.closing = pool.worker.closing ∨ w'.isOwned p = false)

namespace Amidst

theorem of_pools {w w' : World} (p : PoolId) (apart : Apart w w') (pools : w'.pools = w.pools) :
    Amidst w w' p 0 := by
  refine ⟨apart, id, ?_, fun pool _ => ⟨rfl, rfl, rfl, .refl _⟩⟩
  rw [pools, List.modify_id]

theorem refl (w : World) (p : PoolId) : Amidst w w p 0 := of_pools p (.refl w) rfl

theorem trans {first second third : World} {p : PoolId} {more evenMore : Multiset Task}
    (h : Amidst first second p more) (h' : Amidst second third p evenMore) :
    Amidst first third p (more + evenMore) := by
  obtain ⟨f, pools, amid⟩ := h.pools
  obtain ⟨g, pools', amid'⟩ := h'.pools
  refine ⟨h.apart.trans h'.apart, g ∘ f, by rw [pools', pools, List.modify_modify_eq], ?_⟩
  intro pool hp
  have before := amid pool hp
  have after := amid' (f pool) (by rw [pools, List.getElem?_modify_eq, hp]; rfl)
  exact ⟨after.identity.trans before.identity, after.registered.trans before.registered,
    after.handles.trans before.handles, before.worker.trans after.worker⟩

theorem note (w : World) (p : PoolId) {notice : Notice} (h : notice.isElapsed = false) :
    Amidst w (w.note notice) p 0 := of_pools p (.note w h) (w.note_pools _)

theorem onScheduler (w : World) (p : PoolId) (s : SchedulerId) (f : Scheduler → Scheduler) :
    Amidst w (w.onScheduler s f) p 0 := of_pools p ⟨rfl, rfl, rfl, rfl, rfl⟩ rfl

theorem onCache (w : World) (p : PoolId) (c : CacheId) (f : Cache → Cache) :
    Amidst w (w.onCache c f) p 0 := of_pools p ⟨rfl, rfl, rfl, rfl, rfl⟩ rfl

theorem onWorker (w : World) (p : PoolId) {f : Worker Task → Worker Task} {added : Multiset Task}
    (h : ∀ pool, w.pools[p]? = some pool → pool.worker.Amid (f pool.worker) added) :
    Amidst w (w.onWorker p f) p added :=
  ⟨⟨rfl, rfl, rfl, rfl, rfl⟩, _, rfl, fun pool hp => ⟨rfl, rfl, rfl, h pool hp⟩⟩

theorem submit (w : World) (p : PoolId) (task : Task) :
    Amidst w (w.submit (some p) p task) p {task} := by
  unfold World.submit
  simp only [if_true]
  exact onWorker w p fun pool _ => .push pool.worker task

theorem setStage {w w' : World} {p : PoolId} {added : Multiset Task} (h : Amidst w w' p added)
    (stage : Worker.Stage Task) (active : stage.isActive = true) :
    Turned w (w'.setStage p stage) p (stage.tasks + added) := by
  obtain ⟨f, pools, amid⟩ := h.pools
  refine ⟨h.apart.trans ⟨rfl, rfl, rfl, rfl, rfl⟩, _,
    by rw [World.setStage, World.onWorker, onPool, pools, List.modify_modify_eq], ?_⟩
  intro pool hp
  have before := amid pool hp
  refine ⟨⟨before.identity, before.registered, before.handles, active, before.worker.looked,
    before.worker.leaving, fun closing => before.worker.closing.trans closing,
    before.worker.due, ?_⟩, .inl before.worker.closing⟩
  exact ⟨added, rfl, before.worker.others⟩

theorem yield {w w' : World} {p : PoolId} {added : Multiset Task} (h : Amidst w w' p added) :
    Turned w (w'.yield p) p added := by
  simpa only [Worker.Stage.tasks, zero_add] using! h.setStage .between rfl

theorem goOn {w w' : World} {p : PoolId} {added : Multiset Task} (h : Amidst w w' p added)
    (task : Task) : Turned w (w'.goOn p task) p (added + {task}) := by
  rw [add_comm]
  exact h.setStage (.busy task) rfl

end Amidst

/-- A task fits the world if what it refers to is there and is of its kind. -/
def Fits (w : World) : Task → Prop
  | .begin submission | .delayed submission _ | .pending submission _ =>
    ∃ scheduler, w.schedulers[submission.scheduler]? = some scheduler
  | .script run _ =>
    ∃ scheduler program, w.schedulers[run.scheduler]? = some scheduler ∧
      scheduler.job = .script program
  | .fetch run c | .call run c _ _ | .conclude run c _ =>
    ∃ scheduler cache, w.schedulers[run.scheduler]? = some scheduler ∧
      scheduler.job = .refresh c ∧ w.caches[c]? = some cache ∧ cache.scheduler = run.scheduler
  | .inquiry | .guest _ => True

def Does (w w' : World) (p : PoolId) (task : Task) : Prop :=
  ∃ added, Turned w w' p added ∧ Deed w task added w'.schedulers w'.caches

section Waiting
variable {w : World} {p : PoolId} {pool : Pool}

/-- It makes no difference whether a task is put away before the turn ends or after. -/
theorem yield_onWorker {f : Worker Task → Worker Task}
    (h : ∀ worker stage, f { worker with stage := stage } = { f worker with stage := stage }) :
    (w.yield p).onWorker p f = (w.onWorker p f).yield p := by
  unfold yield World.setStage onWorker onPool
  dsimp only
  rw [List.modify_modify_eq, List.modify_modify_eq]
  congr 2
  funext pool
  exact congrArg (fun worker => { pool with worker := worker }) (h pool.worker .between)

/-- A wait goes on, or it is over, no earlier than it is due. -/
theorem waitTill_cases (hp : w.pools[p]? = some pool) (looked : pool.worker.looked ≤ w.now)
    {due : Instant} {waiting : Task} (hd : waiting.due? = some due) (next : World → World) :
    (Turned w (w.waitTill p due waiting next) p {waiting} ∧
      (w.waitTill p due waiting next).schedulers = w.schedulers ∧
      (w.waitTill p due waiting next).caches = w.caches) ∨
    due ≤ w.now ∧ w.waitTill p due waiting next = next (w.onWorker p Worker.spend) := by
  unfold waitTill
  rw [hp]
  dsimp only
  split
  · rw [yield_onWorker fun _ _ => rfl]
    exact .inl ⟨(Amidst.onWorker w p fun pool _ => .stepAside pool.worker waiting).yield, rfl, rfl⟩
  · split
    · rename_i lapsed
      exact .inr ⟨lapsed.trans looked, rfl⟩
    · rw [yield_onWorker fun _ _ => rfl]
      exact .inl ⟨(Amidst.onWorker w p fun pool _ => .rest pool.worker hd).yield, rfl, rfl⟩

theorem waitTill_does (hp : w.pools[p]? = some pool) (looked : pool.worker.looked ≤ w.now)
    {task waiting : Task} {next : World → World} {due : Instant} (hd : waiting.due? = some due)
    (wait : Deed w task {waiting} w.schedulers w.caches)
    (go : due ≤ w.now → w.Does (next (w.onWorker p Worker.spend)) p task) :
    w.Does (w.waitTill p due waiting next) p task := by
  obtain ⟨turned, schedulers, caches⟩ | ⟨lapsed, goes⟩ := waitTill_cases hp looked hd next
  · exact ⟨_, turned, by rw [schedulers, caches]; exact wait⟩
  · exact goes ▸ go lapsed

theorem pausing?_due {task next : Task} {pause : Pause} {still : Pause → Task}
    (h : task.pausing? = some (pause, still, next)) (due : Instant) :
    (still (.till due)).due? = some due := by
  unfold Task.pausing? at h
  split at h <;> cases h <;> rfl

theorem pauseThen_does (hp : w.pools[p]? = some pool) (looked : pool.worker.looked ≤ w.now)
    {task next : Task} {pause : Pause} {still : Pause → Task}
    (h : task.pausing? = some (pause, still, next)) :
    w.Does (w.pauseThen p pause still next) p task := by
  have tillDue {due : Instant} (hd : pause.due? w.now = some due) :
      w.Does (w.waitTill p due (still (.till due)) (·.goOn p next)) p task := by
    refine waitTill_does hp looked (pausing?_due h due) (.pause h hd) fun lapsed => ?_
    have resumed : Deed w task {next} w.schedulers w.caches := by
      refine .resume h fun due' hd' => ?_
      rw [hd] at hd'
      exact Option.some.inj hd' ▸ lapsed
    refine ⟨_, (Amidst.onWorker w p fun pool _ => .spend pool.worker).goOn next, ?_⟩
    rw [zero_add]
    exact resumed
  cases pause with
  | rest length => exact tillDue rfl
  | till due => exact tillDue rfl
  | hold length =>
    have resumed : Deed w task {next} w.schedulers w.caches := .resume h nofun
    unfold pauseThen
    dsimp only
    split
    · exact ⟨_, (Amidst.refl w p).goOn next, by rw [zero_add]; exact resumed⟩
    · exact ⟨_, (Amidst.refl w p).setStage (.held next (w.now + length)) rfl,
        by rw [add_zero]; exact resumed⟩

theorem carryOn_awaiting {task : Task} {submission : Submission} {due : Instant}
    (h : task.awaits? w.now = some (submission, due)) :
    w.carryOn p task = w.awaitDelay p submission due := by
  unfold Task.awaits? at h
  split at h <;> cases h <;> rfl

end Waiting

section Asking
variable {w : World} {p : PoolId} {s : SchedulerId} {scheduler : Scheduler}

theorem schedule_shut (actor : Option PoolId) (hs : w.schedulers[s]? = some scheduler)
    (off : scheduler.isShutDown = true) (delay : Span) :
    w.schedule actor s delay = w.note .scheduleIgnored := by
  unfold schedule
  rw [hs]
  dsimp only
  rw [Scheduler.isShutDown_iff.mp off]

theorem schedule_open (actor : Option PoolId) (hs : w.schedulers[s]? = some scheduler)
    {q : PoolId} (on : scheduler.pool = some q) (delay : Span) :
    ∃ notice : Notice, notice.isElapsed = false ∧ w.schedule actor s delay =
      ((w.submit actor q (.delayed ⟨s, scheduler.accepted⟩ delay)).onScheduler s
        (·.accept)).note notice := by
  unfold schedule
  rw [hs]
  dsimp only
  rw [on]
  exact ⟨_, rfl, rfl⟩

theorem start_vain (actor : Option PoolId) (hs : w.schedulers[s]? = some scheduler)
    (off : scheduler.started = true ∨ scheduler.isShutDown = true) :
    ∃ notice : Notice, notice.isElapsed = false ∧ w.start actor s = w.note notice := by
  unfold start
  rw [hs]
  dsimp only
  split
  · exact ⟨_, rfl, rfl⟩
  · rename_i fresh
    rw [Scheduler.isShutDown_iff.mp (off.resolve_left fresh)]
    exact ⟨_, rfl, rfl⟩

theorem start_open (actor : Option PoolId) (hs : w.schedulers[s]? = some scheduler)
    {q : PoolId} (on : scheduler.pool = some q) (first : scheduler.started = false) :
    ∃ notice : Notice, notice.isElapsed = false ∧ w.start actor s =
      ((w.submit actor q (.begin ⟨s, scheduler.accepted⟩)).onScheduler s
        fun scheduler => { scheduler.accept with started := true }).note notice := by
  unfold start
  rw [hs]
  dsimp only
  rw [first, on]
  exact ⟨_, rfl, rfl⟩

theorem shutdown_shut (actor : Option PoolId) (hs : w.schedulers[s]? = some scheduler)
    (off : scheduler.isShutDown = true) : w.shutdown actor s = (w, false) := by
  unfold shutdown
  rw [hs, Option.bind_some, Scheduler.isShutDown_iff.mp off]

def callOff (w : World) (actor : Option PoolId) (s : SchedulerId) (q : PoolId) : World :=
  (w.onScheduler s (·.letGo)).onWorker q fun worker =>
    worker.rouse (actor == some q) (Task.isPendingOf s)

theorem shutdown_open (actor : Option PoolId) (hs : w.schedulers[s]? = some scheduler)
    {q : PoolId} (on : scheduler.pool = some q) :
    ∃ notice : Notice, notice.isElapsed = false ∧
      w.shutdown actor s = (((w.callOff actor s q).note notice).release q, true) := by
  unfold shutdown
  rw [hs, Option.bind_some, on]
  exact ⟨_, rfl, rfl⟩

theorem shutdown_cases (w : World) (actor : Option PoolId) (s : SchedulerId) :
    w.shutdown actor s = (w, false) ∨
      ∃ scheduler q, w.schedulers[s]? = some scheduler ∧ scheduler.pool = some q ∧
        ∃ notice : Notice, notice.isElapsed = false ∧
          w.shutdown actor s = (((w.callOff actor s q).note notice).release q, true) := by
  cases hs : w.schedulers[s]? with
  | none =>
    unfold shutdown
    rw [hs]
    exact .inl rfl
  | some scheduler =>
    cases on : scheduler.pool with
    | none => exact .inl (shutdown_shut actor hs (Scheduler.isShutDown_iff.mpr on))
    | some q => exact .inr ⟨scheduler, q, rfl, on, shutdown_open actor hs on⟩

inductive Requested (w : World) (actor : Option PoolId) (s : SchedulerId) : World → Prop where
  | unknown : Requested w actor s w
  | vain (notice : Notice) (quiet : notice.isElapsed = false) :
      Requested w actor s (w.note notice)
  | accepted {scheduler q} (hs : w.schedulers[s]? = some scheduler) (on : scheduler.pool = some q)
      (task : Task) (fits : w.Fits task) (mine : task.scheduler? = some s)
      {f : Scheduler → Scheduler}
      (keeps : ∀ x : Scheduler, (f x).job = x.job ∧ (f x).pool = x.pool)
      (notice : Notice) (quiet : notice.isElapsed = false) :
      Requested w actor s (((w.submit actor q task).onScheduler s f).note notice)

theorem start_requested (w : World) (actor : Option PoolId) (s : SchedulerId) :
    Requested w actor s (w.start actor s) := by
  cases hs : w.schedulers[s]? with
  | none =>
    unfold start
    rw [hs]
    exact .unknown
  | some scheduler =>
    by_cases vain : scheduler.started = true ∨ scheduler.isShutDown = true
    · obtain ⟨notice, quiet, same⟩ := start_vain actor hs vain
      rw [same]
      exact .vain notice quiet
    · rw [not_or, Bool.not_eq_true, Bool.not_eq_true] at vain
      obtain ⟨q, on⟩ := Scheduler.not_isShutDown_iff.mp vain.2
      obtain ⟨notice, quiet, asked⟩ := start_open actor hs on vain.1
      rw [asked]
      refine .accepted hs on _ ?_ ?_ ?_ notice quiet
      · exact ⟨scheduler, hs⟩
      · rfl
      · exact fun _ => ⟨rfl, rfl⟩

theorem schedule_requested (w : World) (actor : Option PoolId) (s : SchedulerId) (delay : Span) :
    Requested w actor s (w.schedule actor s delay) := by
  cases hs : w.schedulers[s]? with
  | none =>
    unfold schedule
    rw [hs]
    exact .unknown
  | some scheduler =>
    cases on : scheduler.pool with
    | none =>
      rw [schedule_shut actor hs (Scheduler.isShutDown_iff.mpr on)]
      exact .vain _ rfl
    | some q =>
      obtain ⟨notice, quiet, asked⟩ := schedule_open actor hs on delay
      rw [asked]
      refine .accepted hs on _ ?_ ?_ ?_ notice quiet
      · exact ⟨scheduler, hs⟩
      · rfl
      · exact fun _ => ⟨rfl, rfl⟩

end Asking

theorem isOwned_congr {w w' : World} {q : PoolId} (schedulers : w'.schedulers = w.schedulers)
    (kept : (w'.pools[q]?.map fun pool => (pool.registered, pool.handles)) =
      w.pools[q]?.map fun pool => (pool.registered, pool.handles)) :
    w'.isOwned q = w.isOwned q := by
  unfold isOwned
  rw [schedulers]
  congr 1
  cases h : w.pools[q]? <;> cases h' : w'.pools[q]? <;> simp_all

section Release
variable (w : World) (q : PoolId)

theorem release_eq : w.release q = w ∨ ∃ pool, w.pools[q]? = some pool ∧ w.isOwned q = false ∧
    w.release q = (w.note (.poolClosing pool.threads)).onWorker q fun worker =>
      { worker with closing := true } := by
  unfold release
  split
  · exact .inl rfl
  · rename_i pool hq
    split
    · exact .inl rfl
    · rename_i free
      rw [Bool.or_eq_true, not_or, Bool.not_eq_true, Bool.not_eq_true] at free
      exact .inr ⟨pool, hq, free.1, rfl⟩

@[simp] theorem release_schedulers : (w.release q).schedulers = w.schedulers := by
  obtain h | ⟨pool, -, -, h⟩ := w.release_eq q <;> rw [h]
  exact w.note_schedulers _

@[simp] theorem release_caches : (w.release q).caches = w.caches := by
  obtain h | ⟨pool, -, -, h⟩ := w.release_eq q <;> rw [h]
  exact w.note_caches _

variable {w} in
theorem Amidst.release {w' : World} {p : PoolId} {added : Multiset Task} (h : Amidst w w' p added)
    (task : Task) : Turned w ((w'.release p).goOn p task) p (added + {task}) := by
  obtain same | ⟨_, -, free, closed⟩ := w'.release_eq p
  · rw [same]
    exact h.goOn task
  · rw [closed]
    obtain ⟨f, pools, carries⟩ := (h.goOn task).pools
    refine ⟨(h.apart.trans (.note _ rfl)).trans ⟨rfl, rfl, rfl, rfl, rfl⟩,
      fun pool => { f pool with worker := { (f pool).worker with closing := true } }, ?_, ?_⟩
    · have swap (notice : Notice) : (((w'.note notice).onWorker p fun worker =>
          { worker with closing := true }).goOn p task).pools =
          (w'.goOn p task).pools.modify p fun pool =>
            { pool with worker := { pool.worker with closing := true } } := by
        unfold World.goOn World.setStage World.onWorker onPool
        dsimp only
        rw [note_pools, List.modify_modify_eq, List.modify_modify_eq]
        rfl
      rw [swap, pools, List.modify_modify_eq]
      rfl
    · intro pool hp
      obtain ⟨before, -⟩ := carries pool hp
      refine ⟨⟨before.identity, before.registered, before.handles, before.active, before.looked,
        before.leaving, fun _ => rfl, before.due, before.hand⟩, .inr ?_⟩
      rw [← free]
      apply isOwned_congr
      · simp only [World.goOn, World.setStage, World.onWorker, onPool, note_schedulers]
      · simp only [World.goOn, World.setStage, World.onWorker, onPool, note_pools,
          List.getElem?_modify_eq]
        cases w'.pools[p]? <;> rfl

end Release

section Tasks
variable {w : World} {p : PoolId}

theorem enter_does {w' : World} {task : Task} {submission : Submission}
    (begins : task.Begins w.now (w.isCalledOff submission) submission)
    (fits : w.Fits (.begin submission)) (amid : Amidst w w' p 0) (now : w'.now = w.now)
    (schedulers : w'.schedulers = w.schedulers) (caches : w'.caches = w.caches) :
    ∃ added, task ∉ added ∧ Turned w (w'.enter p submission) p added ∧
      Deed w task added (w'.enter p submission).schedulers (w'.enter p submission).caches := by
  have goes {next : Task} (under : next.awaits? w.now = none)
      (begun : ∀ submission, next ≠ .begin submission) : task ∉ ({next} : Multiset Task) := by
    rintro same
    cases Multiset.mem_singleton.mp same
    cases begins with
    | atOnce => exact begun _ rfl
    | waited waits => cases under.symm.trans waits
  obtain ⟨scheduler, hs⟩ := fits
  have entered : Amidst w (w'.onScheduler submission.scheduler fun scheduler =>
      { scheduler with runs := scheduler.runs ++ [⟨submission.number, w'.now, none⟩] }) p 0 :=
    amid.trans (.onScheduler w' p submission.scheduler _)
  unfold enter
  rw [schedulers, hs]
  dsimp only
  split
  · rename_i program job
    refine ⟨_, by rw [zero_add]; exact goes rfl nofun, entered.goOn _, ?_⟩
    simp only [goOn, World.setStage, onWorker, onPool, onScheduler, schedulers, caches, now]
    exact .enterScript begins hs job
  · rename_i c job
    split
    · rename_i dropped
      refine ⟨0, Multiset.notMem_zero _,
        ((entered.trans (.note _ p rfl)).trans (.onScheduler _ p _ _)).yield, ?_⟩
      simp only [leaveRun, endRun, yield, World.setStage, onWorker, onPool, onScheduler,
        note_schedulers, note_caches, note_now, List.modify_modify_eq, schedulers, caches, now]
      exact .enterDropped begins hs job (caches ▸ dropped)
    · rename_i kept
      rw [Bool.not_eq_true] at kept
      refine ⟨_, by rw [zero_add]; exact goes rfl nofun,
        ((entered.trans (.note _ p rfl)).trans (.submit _ p _)).yield, ?_⟩
      simp only [submit, yield, World.setStage, onWorker, onPool, onScheduler, note_schedulers,
        note_caches, schedulers, caches, now]
      exact .enterRefresh begins hs job (caches ▸ kept)

theorem awaiting_does {pool : Pool} (hp : w.pools[p]? = some pool)
    (looked : pool.worker.looked ≤ w.now) {task : Task} {submission : Submission} {due : Instant}
    (h : task.awaits? w.now = some (submission, due)) (fits : w.Fits (.begin submission)) :
    w.Does (w.carryOn p task) p task := by
  rw [carryOn_awaiting h]
  unfold awaitDelay
  split
  · rename_i off
    refine ⟨0, ?_, ?_⟩
    · exact ((Amidst.onScheduler w p submission.scheduler _).trans (.note _ p rfl)).yield
    · simp only [abandon, yield, World.setStage, onWorker, onPool, note_schedulers, note_caches]
      exact .abandon h off
  · rename_i on
    rw [Bool.not_eq_true] at on
    refine waitTill_does hp looked rfl (.wait h on) fun lapsed => ?_
    obtain ⟨added, -, does⟩ := enter_does (.waited h on lapsed) fits
      (Amidst.onWorker w p fun pool _ => .spend pool.worker) rfl rfl rfl
    exact ⟨added, does⟩

theorem callIssuer_does {run : RunId} {c : CacheId} (fits : w.Fits (.fetch run c)) :
    w.Does (w.callIssuer p run c) p (.fetch run c) := by
  obtain ⟨-, cache, -, -, hc, -⟩ := fits
  unfold callIssuer
  rw [hc]
  refine ⟨_, (Amidst.onCache w p c _).goOn _, ?_⟩
  rw [zero_add]
  exact .call hc

theorem endCall_does (run : RunId) (c : CacheId) (reply : Reply) :
    w.Does (w.endCall p run c reply) p (.call run c [] reply) := by
  refine ⟨_, ((Amidst.onCache w p c _).trans (.submit _ p _)).yield, ?_⟩
  rw [zero_add]
  exact .endCall

theorem takeUp_eq (w : World) (c : CacheId) (config : Config) (reply : Reply) :
    ∃ notice : Notice, notice.isElapsed = false ∧ w.takeUp c config reply =
      ((w.note notice).onCache c (·.takeUp config reply w.now), config.delayAfter reply) := by
  unfold takeUp Config.delayAfter
  cases h : reply.token with
  | ok taken =>
    simp only [Cache.takeUp, h]
    exact ⟨_, rfl, rfl⟩
  | error error =>
    simp only [Cache.takeUp, h]
    refine ⟨.loadFailed error config.retryDelay, rfl, ?_⟩
    unfold onCache
    rw [show (fun cache : Cache => cache) = id from rfl, List.modify_id]

def settled (w : World) (c : CacheId) (config : Config) (reply : Reply) (notice : Notice) : World :=
  (w.note notice).onCache c (·.conclude config reply w.now)

variable (p) in
theorem conclude_eq {run : RunId} {c : CacheId} (reply : Reply) {cache : Cache}
    (hc : w.caches[c]? = some cache) (same : cache.scheduler = run.scheduler) :
    ∃ notice : Notice, notice.isElapsed = false ∧ w.conclude p run c reply =
      (((w.settled c cache.config reply notice).schedule (some p) run.scheduler
        (cache.config.delayAfter reply)).note (.nextLoad (cache.config.delayAfter reply))).leaveRun
          p run := by
  obtain ⟨notice, quiet, taken⟩ := w.takeUp_eq c cache.config reply
  refine ⟨notice, quiet, ?_⟩
  unfold conclude settled
  rw [hc]
  dsimp only
  rw [taken, same]
  dsimp only
  unfold onCache
  dsimp only
  rw [note_now, List.modify_modify_eq]
  rfl

theorem conclude_does {run : RunId} {c : CacheId} {reply : Reply}
    (fits : w.Fits (.conclude run c reply))
    (home : ∀ scheduler q, w.schedulers[run.scheduler]? = some scheduler →
      scheduler.pool = some q → q = p) :
    w.Does (w.conclude p run c reply) p (.conclude run c reply) := by
  obtain ⟨scheduler, cache, hs, -, hc, same⟩ := fits
  obtain ⟨notice, quiet, h⟩ := conclude_eq p reply hc same
  rw [h]
  have before : Amidst w (w.settled c cache.config reply notice) p 0 := by
    simpa only [zero_add] using! (Amidst.note w p quiet).trans (.onCache _ p c _)
  have hs' : (w.settled c cache.config reply notice).schedulers[run.scheduler]? =
      some scheduler := by
    simpa only [settled, onCache, note_schedulers] using hs
  have leaves {w' : World} {added : Multiset Task} (amid : Amidst w w' p added) :
      Turned w ((w'.note (.nextLoad (cache.config.delayAfter reply))).leaveRun p run) p added := by
    simpa only [add_zero] using! ((amid.trans (.note _ p rfl)).trans
      (.onScheduler _ p run.scheduler _)).yield
  cases on : scheduler.pool with
  | none =>
    rw [schedule_shut (some p) hs' (Scheduler.isShutDown_iff.mpr on)]
    refine ⟨0, leaves (by simpa only [add_zero] using before.trans (.note _ p rfl)), ?_⟩
    simp only [settled, leaveRun, endRun, yield, World.setStage, onWorker, onPool, onScheduler,
      onCache, note_schedulers, note_caches, note_now]
    exact .concludeLast hc hs (Scheduler.isShutDown_iff.mpr on)
  | some q =>
    obtain ⟨notice', quiet', asked⟩ :=
      schedule_open (some p) hs' on (cache.config.delayAfter reply)
    obtain rfl := home scheduler q hs on
    rw [asked]
    refine ⟨_, leaves (((before.trans (.submit _ q _)).trans (.onScheduler _ q _ _)).trans
      (.note _ q quiet')), ?_⟩
    simp only [settled, submit, leaveRun, endRun, yield, World.setStage, onWorker, onPool,
      onScheduler, onCache, note_schedulers, note_caches, note_now, List.modify_modify_eq, zero_add,
      add_zero]
    exact .conclude hc hs (Scheduler.not_isShutDown_iff.mpr ⟨q, on⟩)

theorem unlessDropped_eq {s : SchedulerId} {scheduler : Scheduler}
    (hs : w.schedulers[s]? = some scheduler) (f : World → World) :
    w.unlessDropped s f = if scheduler.dropped then w else f w := by
  unfold unlessDropped
  rw [hs]
  rfl

theorem inVain_does {run : RunId} {action : Action} {rest : List Action} {scheduler : Scheduler}
    (hs : w.schedulers[run.scheduler]? = some scheduler)
    (kind : action = .start ∧ scheduler.started = true ∨
      (action = .start ∨ action = .shutdown ∨ ∃ delay, action = .schedule delay) ∧
        (scheduler.isShutDown = true ∨ scheduler.dropped = true))
    {w' : World} (h : w' = w ∨ ∃ notice : Notice, notice.isElapsed = false ∧ w' = w.note notice) :
    w.Does (w'.goOn p (.script run rest)) p (.script run (action :: rest)) := by
  have deed : Deed w (.script run (action :: rest)) {.script run rest} w.schedulers w.caches :=
    .inVain hs kind
  obtain rfl | ⟨notice, quiet, rfl⟩ := h
  · exact ⟨_, (Amidst.refl w' p).goOn _, by rw [zero_add]; exact deed⟩
  · refine ⟨_, (Amidst.note w p quiet).goOn _, ?_⟩
    simp only [goOn, World.setStage, onWorker, onPool, note_schedulers, note_caches, zero_add]
    exact deed

theorem perform_does {pool : Pool} (hp : w.pools[p]? = some pool)
    (looked : pool.worker.looked ≤ w.now) {run : RunId} {action : Action} {rest : List Action}
    (fits : w.Fits (.script run (action :: rest)))
    (home : ∀ scheduler q, w.schedulers[run.scheduler]? = some scheduler →
      scheduler.pool = some q → q = p) :
    w.Does (w.perform p run action rest) p (.script run (action :: rest)) := by
  obtain ⟨scheduler, program, hs, -⟩ := fits
  cases action with
  | pause pause =>
    exact pauseThen_does hp looked
      (show Task.pausing? (.script run (.pause pause :: rest)) = _ from rfl)
  | panic => exact ⟨0, (Amidst.onScheduler w p run.scheduler _).yield, .panic⟩
  | schedule delay =>
    unfold perform
    dsimp only
    rw [unlessDropped_eq hs]
    split
    · rename_i dropped
      exact inVain_does hs (.inr ⟨.inr (.inr ⟨delay, rfl⟩), .inr dropped⟩) (.inl rfl)
    · rename_i kept
      rw [Bool.not_eq_true] at kept
      cases on : scheduler.pool with
      | none =>
        have off : scheduler.isShutDown = true := Scheduler.isShutDown_iff.mpr on
        exact inVain_does hs (.inr ⟨.inr (.inr ⟨delay, rfl⟩), .inl off⟩)
          (.inr ⟨.scheduleIgnored, rfl, schedule_shut (some p) hs off delay⟩)
      | some q =>
        obtain ⟨notice, quiet, asked⟩ := schedule_open (some p) hs on delay
        obtain rfl := home scheduler q hs on
        rw [asked]
        refine ⟨_, (((Amidst.submit w q _).trans (.onScheduler _ q _ _)).trans
          (.note _ q quiet)).goOn _, ?_⟩
        simp only [submit, goOn, World.setStage, onWorker, onPool, onScheduler, note_schedulers,
          note_caches, add_zero]
        exact .schedule hs (Scheduler.not_isShutDown_iff.mpr ⟨q, on⟩) kept
  | start =>
    unfold perform
    dsimp only
    rw [unlessDropped_eq hs]
    split
    · rename_i dropped
      exact inVain_does hs (.inr ⟨.inl rfl, .inr dropped⟩) (.inl rfl)
    · rename_i kept
      rw [Bool.not_eq_true] at kept
      by_cases vain : scheduler.started = true ∨ scheduler.isShutDown = true
      · refine inVain_does hs ?_ (.inr (start_vain (some p) hs vain))
        obtain started | off := vain
        · exact .inl ⟨rfl, started⟩
        · exact .inr ⟨.inl rfl, .inl off⟩
      · rw [not_or, Bool.not_eq_true, Bool.not_eq_true] at vain
        obtain ⟨q, on⟩ := Scheduler.not_isShutDown_iff.mp vain.2
        obtain ⟨notice, quiet, asked⟩ := start_open (some p) hs on vain.1
        obtain rfl := home scheduler q hs on
        rw [asked]
        refine ⟨_, (((Amidst.submit w q _).trans (.onScheduler _ q _ _)).trans
          (.note _ q quiet)).goOn _, ?_⟩
        simp only [submit, goOn, World.setStage, onWorker, onPool, onScheduler, note_schedulers,
          note_caches, add_zero]
        exact .start hs vain.2 kept vain.1
  | shutdown =>
    unfold perform
    dsimp only
    rw [unlessDropped_eq hs]
    split
    · rename_i dropped
      exact inVain_does hs (.inr ⟨.inr (.inl rfl), .inr dropped⟩) (.inl rfl)
    · rename_i kept
      rw [Bool.not_eq_true] at kept
      cases on : scheduler.pool with
      | none =>
        have off : scheduler.isShutDown = true := Scheduler.isShutDown_iff.mpr on
        refine inVain_does hs (.inr ⟨.inr (.inl rfl), .inl off⟩) (.inl ?_)
        rw [shutdown_shut (some p) hs off]
      | some q =>
        obtain ⟨notice, quiet, shut⟩ := shutdown_open (some p) hs on
        obtain rfl := home scheduler q hs on
        rw [shut]
        have calledOff : Amidst w ((w.callOff (some q) run.scheduler q).note notice) q 0 := by
          unfold callOff
          rw [beq_self_eq_true]
          simpa only [add_zero] using! ((Amidst.onScheduler w q run.scheduler _).trans
            (.onWorker _ q (f := fun worker => worker.rouse true (Task.isPendingOf run.scheduler))
              fun pool _ => .rouse pool.worker _)).trans (.note _ q quiet)
        refine ⟨_, calledOff.release _, ?_⟩
        simp only [callOff, goOn, World.setStage, onWorker, onPool, onScheduler, note_schedulers,
          note_caches, release_schedulers, release_caches, zero_add]
        exact .shutdown hs (Scheduler.not_isShutDown_iff.mpr ⟨q, on⟩) kept

/-- One step of a task in its turn, whatever the task is. -/
theorem carryOn_does {pool : Pool} (hp : w.pools[p]? = some pool)
    (looked : pool.worker.looked ≤ w.now) {task : Task} (fits : w.Fits task)
    (home : ∀ s scheduler q, task.scheduler? = some s → w.schedulers[s]? = some scheduler →
      scheduler.pool = some q → q = p) :
    w.Does (w.carryOn p task) p task := by
  cases task with
  | begin submission =>
    obtain ⟨added, -, does⟩ := enter_does .atOnce fits (.refl w p) rfl rfl rfl
    exact ⟨added, does⟩
  | delayed submission delay => exact awaiting_does hp looked rfl fits
  | pending submission due => exact awaiting_does hp looked rfl fits
  | script run actions =>
    cases actions with
    | nil => exact ⟨0, (Amidst.onScheduler w p run.scheduler _).yield, .leave⟩
    | cons action rest =>
      exact perform_does hp looked fits fun scheduler q => home _ scheduler q rfl
  | fetch run c => exact callIssuer_does fits
  | call run c pauses reply =>
    cases pauses with
    | nil => exact endCall_does run c reply
    | cons pause rest =>
      exact pauseThen_does hp looked
        (show Task.pausing? (.call run c (pause :: rest) reply) = _ from rfl)
  | conclude run c reply => exact conclude_does fits fun scheduler q => home _ scheduler q rfl
  | inquiry =>
    have answered : Amidst w (w.onPool p fun pool => { pool with answered := pool.answered + 1 })
        p 0 :=
      ⟨⟨rfl, rfl, rfl, rfl, rfl⟩, _, rfl, fun pool _ => ⟨rfl, rfl, rfl, .refl _⟩⟩
    exact ⟨0, answered.yield, .answer⟩
  | guest pauses =>
    cases pauses with
    | nil => exact ⟨0, (Amidst.refl w p).yield, .leaveGuest⟩
    | cons pause rest =>
      exact pauseThen_does hp looked (show Task.pausing? (.guest (pause :: rest)) = _ from rfl)

end Tasks

end World
end TokenKeeper
