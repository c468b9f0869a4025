import TokenKeeper.Proofs.Docket.Birth
import TokenKeeper.Proofs.Operations
/-! What a step means for one scheduler with a script that nobody outside asks for a run after a
delay: it goes by, a start counts, or one of the scheduler's own tasks goes on. -/
namespace TokenKeeper

structure Scheduler.Stays (before after : Scheduler) : Prop where
  job : after.job = before.job
  started : after.started = before.started
  runs : after.runs = before.runs
  shut : before.isShutDown = true → after.isShutDown = true

namespace Scheduler.Stays

theorem refl (scheduler : Scheduler) : scheduler.Stays scheduler := ⟨rfl, rfl, rfl, id⟩

theorem trans {first second third : Scheduler} (h : first.Stays second) (h' : second.Stays third) :
    first.Stays third :=
  ⟨h'.job.trans h.job, h'.started.trans h.started, h'.runs.trans h.runs, h'.shut ∘ h.shut⟩

end Scheduler.Stays

namespace Scheduler

theorem accept_ne (scheduler : Scheduler) : scheduler.accept ≠ scheduler :=
  fun same => (Nat.lt_succ_self _).ne (congrArg accepted same).symm

theorem startOnce_ne_accept (scheduler : Scheduler) : scheduler.startOnce ≠ scheduler.accept := by
  unfold startOnce
  split
  · exact scheduler.accept_ne.symm
  · rename_i first
    intro same
    have started : true = scheduler.started := congrArg Scheduler.started same
    simp [← started] at first

end Scheduler

namespace World
variable {w w' : World} {s : SchedulerId} {p q : PoolId} {pool : Pool} {task : Task}

def AtHand (w : World) (task : Task) : Prop :=
  ∃ (p : PoolId) (pool : Pool), w.pools[p]? = some pool ∧ pool.worker.stage = .busy task

/-- The scheduler gets nothing more to do, and no worker turns away from a task of it. -/
structure Aside (s : SchedulerId) (w w' : World) : Prop where
  now : w.now ≤ w'.now
  scheduler : ∀ before, w.schedulers[s]? = some before →
    ∃ after, w'.schedulers[s]? = some after ∧ before.Stays after
  live : w'.live s ≤ w.live s
  hand : ∀ task, task.scheduler? = some s → w.AtHand task → w'.AtHand task

/-- What a change of one pool leaves of the tasks of a scheduler. -/
theorem live_le_modify (hp : w.pools[p]? = some pool) {f : Pool → Pool}
    (pools : w'.pools = w.pools.modify p f) {gone added others : Multiset Task}
    (before : pool.worker.tasks = gone + others)
    (after : (f pool).worker.tasks ≤ added + others) (s : SchedulerId) :
    ∃ rest, w.live s = gone.filter (·.scheduler? = some s) + rest ∧
      w'.live s ≤ added.filter (·.scheduler? = some s) + rest := by
  obtain ⟨beyond, was, is⟩ := tasks_modify hp pools
  refine ⟨(others + beyond).filter (·.scheduler? = some s), ?_, ?_⟩
  · rw [live, was, before, add_assoc, Multiset.filter_add]
  · rw [live, is, ← Multiset.filter_add, ← add_assoc]
    exact Multiset.filter_le_filter _ (add_le_add_left after beyond)

namespace Aside

theorem refl (s : SchedulerId) (w : World) : Aside s w w :=
  ⟨le_rfl, fun before hs => ⟨before, hs, .refl _⟩, le_rfl, fun _ _ => id⟩

theorem trans {first second third : World} (h : Aside s first second)
    (h' : Aside s second third) : Aside s first third where
  now := h.now.trans h'.now
  scheduler := by
    intro before hs
    obtain ⟨middle, hm, stays⟩ := h.scheduler before hs
    obtain ⟨after, ha, stays'⟩ := h'.scheduler middle hm
    exact ⟨after, ha, stays.trans stays'⟩
  live := h'.live.trans h.live
  hand := fun task mine => h'.hand task mine ∘ h.hand task mine

theorem of_pools (now : w.now ≤ w'.now) (pools : w'.pools = w.pools)
    (scheduler : ∀ before, w.schedulers[s]? = some before →
      ∃ after, w'.schedulers[s]? = some after ∧ before.Stays after) : Aside s w w' :=
  ⟨now, scheduler, (live_congr pools s).le, fun _ _ ⟨p, pool, hp, stage⟩ =>
    ⟨p, pool, pools ▸ hp, stage⟩⟩

theorem same (now : w.now ≤ w'.now) (pools : w'.pools = w.pools)
    (schedulers : w'.schedulers = w.schedulers) : Aside s w w' :=
  of_pools now pools fun before hs => ⟨before, schedulers ▸ hs, .refl _⟩

theorem note (w : World) (notice : Notice) : Aside s w (w.note notice) :=
  same (w.note_now _).ge (w.note_pools _) (w.note_schedulers _)

theorem attend (w : World) (i : Nat) : Aside s w (w.attend i) :=
  same (w.attend_now _).ge (w.attend_pools _) (w.attend_schedulers _)

theorem onScheduler (w : World) (s' : SchedulerId) {f : Scheduler → Scheduler}
    (stays : s' ≠ s ∨ ∀ scheduler : Scheduler, scheduler.Stays (f scheduler)) :
    Aside s w (w.onScheduler s' f) := by
  refine of_pools le_rfl rfl fun before hs => ⟨if s' = s then f before else before, ?_, ?_⟩
  · simp only [World.onScheduler, List.getElem?_modify, hs]
    split <;> rfl
  · split
    · rename_i mine
      exact stays.resolve_left (not_not.mpr mine) before
    · exact .refl before

theorem modify (now : w'.now = w.now) (scheduler : w'.schedulers[s]? = w.schedulers[s]?)
    {f : Pool → Pool} (pools : w'.pools = w.pools.modify p f)
    (each : ∀ pool, w.pools[p]? = some pool →
      (∃ added : Multiset Task, (∀ next ∈ added, next.scheduler? ≠ some s) ∧
        (f pool).worker.tasks ≤ added + pool.worker.tasks) ∧
      ∀ task, task.scheduler? = some s → pool.worker.stage = .busy task →
        (f pool).worker.stage = .busy task) : Aside s w w' where
  now := now.ge
  scheduler := fun before hs => ⟨before, scheduler.trans hs, .refl before⟩
  live := by
    cases hp : w.pools[p]? with
    | none =>
      rw [List.modify_eq_self (List.getElem?_eq_none_iff.mp hp)] at pools
      exact (live_congr pools s).le
    | some pool =>
      obtain ⟨⟨added, foreign, le⟩, -⟩ := each pool hp
      obtain ⟨rest, was, is⟩ := live_le_modify hp pools (zero_add _).symm le s
      rw [Multiset.filter_zero, zero_add] at was
      rw [Multiset.filter_eq_nil.mpr foreign, zero_add] at is
      exact is.trans was.ge
  hand := by
    rintro task mine ⟨q, pool, hq, stage⟩
    refine ⟨q, if p = q then f pool else pool, ?_, ?_⟩
    · rw [pools, List.getElem?_modify, hq]
      split <;> rfl
    · split
      · rename_i same
        exact (each pool (same ▸ hq)).2 task mine stage
      · exact stage

theorem onWorker (w : World) (p : PoolId) {f : Worker Task → Worker Task} (added : Multiset Task)
    (foreign : ∀ next ∈ added, next.scheduler? ≠ some s)
    (each : ∀ worker, (f worker).stage = worker.stage ∧
      (f worker).tasks ≤ added + worker.tasks) : Aside s w (w.onWorker p f) :=
  modify rfl rfl rfl fun pool _ =>
    have ⟨stage, le⟩ := each pool.worker
    ⟨⟨added, foreign, le⟩, fun _ _ busy => stage.trans busy⟩

theorem kept (w : World) (p : PoolId) {f : Pool → Pool}
    (worker : ∀ pool, (f pool).worker = pool.worker) : Aside s w (w.onPool p f) :=
  modify rfl rfl rfl fun pool _ => by
    rw [worker]
    exact ⟨⟨0, nofun, (zero_add _).ge⟩, fun _ _ => id⟩

theorem release (w : World) (p : PoolId) : Aside s w (w.release p) := by
  obtain h | ⟨pool, -, -, closed⟩ := w.release_eq p
  · rw [h]
    exact refl s w
  · rw [closed]
    exact (note w _).trans (onWorker _ p 0 nofun fun _ => ⟨rfl, (zero_add _).ge⟩)

theorem submit (w : World) (p : PoolId) (foreign : task.scheduler? ≠ some s) :
    Aside s w (w.submit none p task) := by
  refine onWorker w p {task} (fun next hn => Multiset.mem_singleton.mp hn ▸ foreign)
    fun worker => ⟨?_, (worker.submit_tasks task).le⟩
  simp only [reduceCtorEq, if_false]
  obtain ⟨inbox, eq⟩ := worker.submitAll_eq [task]
  rw [Worker.submit, eq]
  rfl

theorem shutdown (w : World) (s' : SchedulerId) : Aside s w (w.shutdown none s').1 := by
  rcases w.shutdown_cases none s' with same | ⟨_, q, -, -, notice, -, shut⟩
  · rw [same]
    exact refl s w
  · rw [shut]
    have letGo : Aside s w (w.onScheduler s' (·.letGo)) :=
      onScheduler w s' (.inr fun _ => ⟨rfl, rfl, rfl, fun _ => rfl⟩)
    have rouse : Aside s (w.onScheduler s' (·.letGo)) (w.callOff none s' q) :=
      onWorker _ q 0 nofun fun worker =>
        ⟨rfl, by rw [zero_add]; exact (worker.rouse_tasks _).le⟩
    exact ((letGo.trans rouse).trans (note _ notice)).trans (release _ q)

theorem asked {s' : SchedulerId} (asks : Asks w w' s') (other : s' ≠ s) : Aside s w w' := by
  obtain same | ⟨scheduler, q, task, f, -, -, -, mine, -, notice, -, rfl⟩ := asks
  · obtain rfl | ⟨notice, -, rfl⟩ := same
    · exact refl s w'
    · exact note w notice
  · have foreign : task.scheduler? ≠ some s := by
      rw [mine]
      exact fun same => other (Option.some.inj same)
    exact ((submit w q foreign).trans (onScheduler _ s' (.inl other))).trans (note _ notice)

theorem openPool (w : World) (identity : Identity) : Aside s w
    { w with pools := w.pools ++ [{ identity := identity, worker := .fresh w.now }] } := by
  refine ⟨le_rfl, fun before hs => ⟨before, hs, .refl before⟩, ?_, ?_⟩
  · unfold World.live World.tasks
    rw [← Multiset.coe_add, Multiset.add_bind, Multiset.coe_singleton, Multiset.singleton_bind,
      Worker.fresh_tasks, add_zero]
  · rintro task - ⟨p, pool, hp, stage⟩
    have bound := (List.getElem?_eq_some_iff.mp hp).1
    exact ⟨p, pool, (List.getElem?_append_left bound).trans hp, stage⟩

theorem append (w : World) (scheduler : Scheduler) (caches : List Cache) : Aside s w
    { w with schedulers := w.schedulers ++ [scheduler], caches := caches } :=
  of_pools le_rfl rfl fun before hs => ⟨before,
    (List.getElem?_append_left (List.getElem?_eq_some_iff.mp hs).1).trans hs, .refl before⟩

theorem openCache {config : Config} {issuer : Issuer} {c : CacheId}
    (bound : s < w.schedulers.length) (opens : w.openCache config issuer = (.ok c, w')) :
    Aside s w w' := by
  obtain ⟨p, opened, had, -, rfl⟩ := openCache_ok opens
  obtain ⟨same, -⟩ := poolFor_ok had
  have first : Aside s w opened := by
    obtain rfl | ⟨notice, -, rfl⟩ := same
    · exact refl s opened
    · exact (openPool w config.pool).trans (note _ notice)
  refine (first.trans (append opened _ _)).trans (asked (start_asks _ _) ?_)
  rw [(poolFor_rest had).2.1]
  exact bound.ne'

theorem advance (h : w.Sound) (p : PoolId)
    (free : ∀ pool task, w.pools[p]? = some pool → pool.worker.stage ≠ .busy task) :
    Aside s w (w.onWorker p fun worker => worker.advance w.now) :=
  modify rfl rfl rfl fun pool hp =>
    have keeps := (Worker.advance_sound (h.workers pool (List.mem_of_getElem? hp))).1
    ⟨⟨0, nofun, by rw [zero_add]; exact keeps.tasks.le⟩,
      fun task _ busy => absurd busy (free pool task hp)⟩

theorem turned (hp : w.pools[p]? = some pool) (stage : pool.worker.stage = .busy task)
    (does : w.Does w' p task) (foreign : task.scheduler? ≠ some s)
    (scheduler : w'.schedulers[s]? = w.schedulers[s]?) : Aside s w w' := by
  obtain ⟨added, turned, deed⟩ := does
  obtain ⟨f, pools, carries⟩ := turned.pools
  refine modify turned.apart.now scheduler pools fun pool' hp' => ?_
  obtain rfl := Option.some.inj (hp.symm.trans hp')
  refine ⟨⟨added, ?_, ?_⟩, fun _ mine busy => ?_⟩
  · exact fun next hn => deed.scheduler? next hn ▸ foreign
  · refine (carries pool hp).1.tasks.le.trans (add_le_add_right ?_ added)
    rw [Worker.tasks_busy stage]
    exact Multiset.le_add_left _ _
  · cases stage.symm.trans busy
    exact absurd mine foreign

end Aside

inductive Effect (s : SchedulerId) (scheduler : Scheduler) (w w' : World) : Prop where
  | aside (aside : Aside s w w')
  /-- From outside, the first time. -/
  | start (first : scheduler.started = false)
      (after : w'.schedulers[s]? = some { scheduler.accept with started := true })
      (live : w'.live s ≤ {.begin ⟨s, scheduler.accepted⟩} + w.live s)
  /-- One of its own tasks goes on. -/
  | turn {p : PoolId} {pool : Pool} {task : Task} (hp : w.pools[p]? = some pool)
      (stage : pool.worker.stage = .busy task) (mine : task.scheduler? = some s)
      (does : w.Does (w.carryOn p task) p task) (goes : w' = w.carryOn p task)

theorem submit_live (w : World) (q : PoolId) (task : Task) (s : SchedulerId) :
    (w.submit none q task).live s ≤ {task} + w.live s := by
  cases hq : w.pools[q]? with
  | none =>
    have same : (w.submit none q task).pools = w.pools :=
      List.modify_eq_self (List.getElem?_eq_none_iff.mp hq)
    rw [live_congr same]
    exact Multiset.le_add_left _ _
  | some pool =>
    have pools : (w.submit none q task).pools = _ := rfl
    obtain ⟨rest, was, is⟩ :=
      live_le_modify hq pools (zero_add _).symm (pool.worker.submit_tasks task).le s
    rw [Multiset.filter_zero, zero_add] at was
    rw [was]
    exact is.trans (add_le_add_left (Multiset.filter_le _ _) rest)

theorem start_effect {scheduler : Scheduler} (hs : w.schedulers[s]? = some scheduler) :
    Effect s scheduler w (w.start none s) := by
  by_cases vain : scheduler.started = true ∨ scheduler.isShutDown = true
  · obtain ⟨notice, -, same⟩ := start_vain none hs vain
    rw [same]
    exact .aside (.note w notice)
  · rw [not_or, Bool.not_eq_true, Bool.not_eq_true] at vain
    obtain ⟨q, on⟩ := Scheduler.not_isShutDown_iff.mp vain.2
    obtain ⟨notice, -, same⟩ := start_open none hs on vain.1
    rw [same]
    refine .start vain.1 ?_ ?_
    · rw [note_schedulers]
      exact (List.getElem?_modify_eq ..).trans (congrArg (Option.map _) hs)
    · rw [live_congr (note_pools _ _)]
      exact w.submit_live q _ s

theorem work_effect (h : w.Sound) {scheduler : Scheduler} {program : Nat → List Action}
    (hs : w.schedulers[s]? = some scheduler) (job : scheduler.job = .script program)
    (hp : w.pools[p]? = some pool) : Effect s scheduler w (w.work p) := by
  unfold work
  rw [hp]
  dsimp only
  split
  · rename_i task stage
    have ⟨fits, home⟩ := h.tasks p pool hp task (by rw [Worker.tasks_busy stage]; simp)
    have looked := (h.workers pool (List.mem_of_getElem? hp)).looked
    have does := carryOn_does hp looked fits home
    by_cases mine : task.scheduler? = some s
    · exact .turn hp stage mine does rfl
    · -- A scheduler with a script has no cache.
      have uncached : Announces w.caches s ⟨[], .panic⟩ := by
        intro c cache hc own
        obtain ⟨before, hb, loads⟩ := h.caches c cache hc
        obtain rfl := Option.some.inj (hs.symm.trans (own ▸ hb))
        cases job.symm.trans loads
      obtain ⟨added, turned, deed⟩ := does
      exact .aside (.turned hp stage ⟨added, turned, deed⟩ mine
        (deed.elsewhere fits mine uncached).1)
  · rename_i free
    refine .aside (.advance h p fun pool' task hp' busy => ?_)
    obtain rfl := Option.some.inj (hp.symm.trans hp')
    exact free task busy

theorem move_effect (h : w.Sound) {scheduler : Scheduler} {program : Nat → List Action}
    (hs : w.schedulers[s]? = some scheduler) (job : scheduler.job = .script program)
    (moved : w.move? = some w') : Effect s scheduler w w' := by
  obtain ⟨p, pool, hp, -, rfl⟩ | ⟨-, i, -, -, -, -, -, rfl⟩ := move?_cases moved
  · exact work_effect h hs job hp
  · exact .aside (.attend w i)

/-- Something goes on by itself, or is done from outside, but nobody outside asks the scheduler for
a run after a delay, unless it is shut down. -/
inductive Unprompted (s : SchedulerId) (w w' : World) : Prop where
  | pass (pass : Pass w w')
  | step (step : Step w w') (unasked : ∀ scheduler delay, w.schedulers[s]? = some scheduler →
      scheduler.isShutDown = false → w' ≠ w.schedule none s delay)

namespace Unprompted
variable {scheduler : Scheduler}

theorem toStep (unprompted : Unprompted s w w') : Step w w' := by
  cases unprompted with
  | pass pass => exact pass.step
  | step step _ => exact step

theorem of_scheduler (step : Step w w') (other : ∀ scheduler, w.schedulers[s]? = some scheduler →
    w'.schedulers[s]? ≠ some scheduler.accept) : Unprompted s w w' := by
  refine .step step fun scheduler delay hs on asked => other scheduler hs ?_
  rw [asked, schedule_schedulers, List.getElem?_modify_eq, hs]
  exact congrArg some (if_neg (by rw [on]; exact Bool.false_ne_true))

theorem start {s' : SchedulerId} {program : Nat → List Action}
    (hs : w.schedulers[s']? = some scheduler) (job : scheduler.job = .script program) :
    Unprompted s w (w.start none s') := by
  refine .of_scheduler (.start hs job) fun before hb same => ?_
  rw [start_schedulers, List.getElem?_modify, hb] at same
  have same := Option.some.inj same
  split at same
  · exact before.startOnce_ne_accept same
  · exact before.accept_ne same.symm

theorem shutdown (w : World) (s' : SchedulerId) : Unprompted s w (w.shutdown none s').1 := by
  refine .of_scheduler (.shutdown s') fun before hb same => ?_
  cases hs : w.schedulers[s']? with
  | none =>
    unfold World.shutdown at same
    rw [hs] at same
    exact before.accept_ne (Option.some.inj (same.symm.trans hb))
  | some scheduler =>
    rw [(shutdown_schedulers none hs).2, List.getElem?_modify, hb] at same
    have accepted := congrArg Scheduler.accepted (Option.some.inj same)
    split at accepted <;> exact (Nat.lt_succ_self _).ne accepted

theorem passes (passes : Passes w w') : Relation.ReflTransGen (Unprompted s) w w' :=
  Relation.ReflTransGen.mono (fun _ _ pass => .pass pass) _ _ passes

end Unprompted

theorem Unprompted.effect (h : w.Sound) {scheduler : Scheduler} {program : Nat → List Action}
    (hs : w.schedulers[s]? = some scheduler) (job : scheduler.job = .script program)
    (unprompted : Unprompted s w w') : Effect s scheduler w w' := by
  obtain pass | ⟨step, unasked⟩ := unprompted
  · cases pass with
    | move moved => exact move_effect h hs job moved
    | tick _ later => exact .aside (.same later rfl rfl)
  cases step with
  | move moved => exact move_effect h hs job moved
  | tick _ later => exact .aside (.same later rfl rfl)
  | arrive => exact .aside (.attend w _)
  | expect | setOutage | dropCache => exact .aside (.same le_rfl rfl rfl)
  | note => exact .aside (.note w _)
  | openPool identity => exact .aside (.openPool w identity)
  | keepHandle | staff => exact .aside (.kept w _ fun _ => rfl)
  | giveHandle p | unregister p =>
    refine .aside (.trans (.kept w p ?_) (.release _ p))
    exact fun _ => rfl
  | inquire | occupy => exact .aside (.submit w _ nofun)
  | addScheduler => exact .aside (.append w _ _)
  | @start s' =>
    by_cases mine : s' = s
    · exact mine ▸ start_effect (mine ▸ hs)
    · exact .aside (.asked (start_asks w s') mine)
  | @schedule s' _ _ _ _ delay =>
    by_cases mine : s' = s
    · subst mine
      cases off : scheduler.isShutDown with
      | true =>
        rw [schedule_shut none hs off]
        exact .aside (.note w _)
      | false => exact absurd rfl (unasked scheduler delay hs off)
    · exact .aside (.asked (schedule_asks w s' delay) mine)
  | shutdown s' => exact .aside (.shutdown w s')
  | dropScheduler => exact .aside (.onScheduler w _ (.inr fun _ => ⟨rfl, rfl, rfl, id⟩))
  | openCache opens => exact .aside (.openCache (List.getElem?_eq_some_iff.mp hs).1 opens)

end World
end TokenKeeper
