import TokenKeeper.Proofs.Docket.Listed
/-! A step of a worker is a turn of the docket if the worker is at a task of the scheduler. -/
namespace TokenKeeper

namespace World
variable {w : World} {s : SchedulerId} {p : PoolId} {x : Docket}

theorem Lists.isCalledOff (lists : w.Lists s p x) {submission : Submission}
    (same : submission.scheduler = s) : w.isCalledOff submission = x.scheduler.isShutDown := by
  unfold World.isCalledOff
  rw [same, lists.scheduler]
  rfl

end World

namespace Deed
variable {w : World} {s : SchedulerId} {p : PoolId} {x : Docket} {task : Task}
  {added : Multiset Task} {schedulers : List Scheduler} {caches : List Cache}

theorem docket (deed : Deed w task added schedulers caches) (h : w.Sound)
    (lists : w.Lists s p x) (fits : w.Fits task) (mine : task.scheduler? = some s)
    (alone : ∀ run c, task = .fetch run c → x.others = 0) :
    ∃ scheduler upcoming, schedulers[s]? = some scheduler ∧
      x.Turn task added scheduler upcoming ∧ World.Announces caches s upcoming := by
  have now := lists.now
  have here {s' : SchedulerId} {scheduler : Scheduler} (hs : w.schedulers[s']? = some scheduler)
      (same : s' = s) : scheduler = x.scheduler := by
    rw [same, lists.scheduler] at hs
    exact (Option.some.inj hs).symm
  have onScheduler {s' : SchedulerId} (same : s' = s) (f : Scheduler → Scheduler) :
      (w.schedulers.modify s' f)[s]? = some (f x.scheduler) := by
    rw [same, List.getElem?_modify_eq, lists.scheduler]
    rfl
  have ofWaiting {submission : Submission} {due : Instant}
      (waits : task.awaits? w.now = some (submission, due)) : submission.scheduler = s :=
    Option.some.inj ((Task.awaits?_scheduler waits).symm.trans mine)
  cases deed with
  | enterScript begins hs | enterRefresh begins hs =>
    have same := Option.some.inj (begins.scheduler?.symm.trans mine)
    obtain rfl := here hs same
    rw [lists.isCalledOff same, ← now] at begins
    exact ⟨_, _, onScheduler same _, now ▸ .enter begins rfl rfl, lists.upcoming⟩
  | enterDropped begins hs =>
    have same := Option.some.inj (begins.scheduler?.symm.trans mine)
    obtain rfl := here hs same
    rw [lists.isCalledOff same, ← now] at begins
    exact ⟨_, _, onScheduler same _, now ▸ .enterDropped begins, lists.upcoming⟩
  | abandon waits off =>
    rw [lists.isCalledOff (ofWaiting waits)] at off
    exact ⟨_, _, onScheduler (ofWaiting waits) _, .abandon (now ▸ waits) off, lists.upcoming⟩
  | wait waits => exact ⟨_, _, lists.scheduler, .wait (now ▸ waits), lists.upcoming⟩
  | pause pauses hd => exact ⟨_, _, lists.scheduler, .pause pauses (now ▸ hd), lists.upcoming⟩
  | resume pauses lapsed =>
    exact ⟨_, _, lists.scheduler, .resume pauses (now ▸ lapsed), lists.upcoming⟩
  | leave =>
    exact ⟨_, _, onScheduler (Option.some.inj mine) _, now ▸ .leave, lists.upcoming⟩
  | panic => exact ⟨_, _, onScheduler (Option.some.inj mine) _, .panic, lists.upcoming⟩
  | schedule hs on =>
    obtain rfl := here hs (Option.some.inj mine)
    exact ⟨_, _, onScheduler (Option.some.inj mine) _, .schedule on, lists.upcoming⟩
  | start hs on _ first =>
    obtain rfl := here hs (Option.some.inj mine)
    exact ⟨_, _, onScheduler (Option.some.inj mine) _, .start on first, lists.upcoming⟩
  | shutdown => exact ⟨_, _, onScheduler (Option.some.inj mine) _, .shutdown, lists.upcoming⟩
  | inVain _ kind =>
    refine ⟨_, _, lists.scheduler, .inVain ?_, lists.upcoming⟩
    obtain ⟨start, -⟩ | ⟨kind, -⟩ := kind
    · exact .inl start
    · exact kind
  | @call run c cache hc =>
    obtain ⟨-, cache', -, -, hc', same⟩ := fits
    obtain rfl := Option.some.inj (hc.symm.trans hc')
    have own : cache.scheduler = s := same.trans (Option.some.inj mine)
    have next := lists.upcoming c cache hc own
    refine ⟨x.scheduler, cache.issuer (cache.attempts.length + 1), lists.scheduler,
      by rw [← next]; exact .call (alone run c rfl), fun c' cache' hc' mine' => ?_⟩
    obtain ⟨old, ho, rfl⟩ := getElem?_modify_cases hc'
    by_cases there : c = c'
    · subst there
      obtain rfl := Option.some.inj (hc.symm.trans ho)
      rw [if_pos rfl]
      rfl
    · rw [if_neg there] at mine'
      exact absurd (h.only_cache hc ho (mine'.trans own.symm)).symm there
  | endCall =>
    refine ⟨_, _, lists.scheduler, .endCall, lists.upcoming.modify _ fun cache => ?_⟩
    exact ⟨⟨rfl, rfl, rfl⟩, cache.onLatest_length _⟩
  | conclude hc hs on =>
    obtain rfl := here hs (Option.some.inj mine)
    exact ⟨_, _, onScheduler (Option.some.inj mine) _, now ▸ .conclude on,
      lists.upcoming.modify _ fun cache => ⟨.conclude cache _ _ _, cache.conclude_length _ _ _⟩⟩
  | concludeLast hc hs off =>
    obtain rfl := here hs (Option.some.inj mine)
    exact ⟨_, _, onScheduler (Option.some.inj mine) _, now ▸ .concludeLast off,
      lists.upcoming.modify _ fun cache => ⟨.conclude cache _ _ _, cache.conclude_length _ _ _⟩⟩
  | answer | leaveGuest => cases mine

theorem elsewhere (deed : Deed w task added schedulers caches) (fits : w.Fits task)
    (foreign : task.scheduler? ≠ some s) {call : Call}
    (upcoming : World.Announces w.caches s call) :
    schedulers[s]? = w.schedulers[s]? ∧ World.Announces caches s call := by
  have onScheduler {s' : SchedulerId} (f : Scheduler → Scheduler)
      (elsewhere : some s' ≠ some s) :
      (w.schedulers.modify s' f)[s]? = w.schedulers[s]? :=
    List.getElem?_modify_ne _ _ fun same => elsewhere (congrArg some same)
  have onCache {run : RunId} {c : CacheId} (f : Cache → Cache) (fits : w.Fits (.fetch run c))
      (elsewhere : some run.scheduler ≠ some s)
      (follows : ∀ cache : Cache, cache.Follows (f cache)) :
      World.Announces (w.caches.modify c f) s call := by
    refine upcoming.keep fun c' cache' hc' mine => ?_
    obtain ⟨old, ho, rfl⟩ := getElem?_modify_cases hc'
    by_cases there : c = c'
    · subst there
      obtain ⟨_, cache, -, -, hc, same⟩ := fits
      obtain rfl := Option.some.inj (hc.symm.trans ho)
      rw [if_pos rfl, (follows _).scheduler, same] at mine
      exact absurd (congrArg some mine) elsewhere
    · rw [if_neg there] at mine ⊢
      exact ⟨old, ho, mine, rfl, rfl⟩
  cases deed with
  | enterScript begins | enterRefresh begins | enterDropped begins =>
    exact ⟨onScheduler _ (begins.scheduler? ▸ foreign), upcoming⟩
  | leave | panic | schedule | start | shutdown => exact ⟨onScheduler _ foreign, upcoming⟩
  | abandon waits => exact ⟨onScheduler _ (Task.awaits?_scheduler waits ▸ foreign), upcoming⟩
  | wait | pause | resume | inVain | answer | leaveGuest => exact ⟨rfl, upcoming⟩
  | call | endCall => exact ⟨rfl, onCache _ fits foreign fun _ => ⟨rfl, rfl, rfl⟩⟩
  | conclude | concludeLast =>
    exact ⟨onScheduler _ foreign, onCache _ fits foreign fun cache => .conclude cache _ _ _⟩

end Deed

namespace World
variable {w w' : World} {s : SchedulerId} {p q : PoolId} {x : Docket} {held : Option Task → Prop}
  {pool : Pool} {task : Task}

namespace Lists

theorem turned_other (lists : w.Lists s p x) (hq : w.pools[q]? = some pool)
    (stage : pool.worker.stage = .busy task) (fits : w.Fits task) (does : w.Does w' q task)
    (foreign : task.scheduler? ≠ some s) : Listed held w' s p x := by
  obtain ⟨added, turned, deed⟩ := does
  obtain ⟨f, pools, carries⟩ := turned.pools
  obtain ⟨hs, caches⟩ := deed.elsewhere fits foreign lists.upcoming
  have others : ∀ next ∈ added, next.scheduler? ≠ some s :=
    fun next hn => deed.scheduler? next hn ▸ foreign
  refine lists.modify turned.apart.now hs caches pools fun pool' hq' => ?_
  obtain rfl := Option.some.inj (hq.symm.trans hq')
  obtain ⟨carries, closing⟩ := carries pool hq
  obtain ⟨put, split, left⟩ := carries.hand
  have away : pool.worker.stage.of s = .between := by
    rw [stage]
    exact if_neg foreign
  have away' : (f pool).worker.stage.of s = .between := by
    cases after : (f pool).worker.stage with
    | busy next | held next =>
      refine if_neg (others next ?_)
      rw [split, after]
      exact Multiset.mem_add.mpr (.inl (Multiset.mem_singleton_self next))
    | _ => rfl
  have puts : ∀ next ∈ put, next.scheduler? ≠ some s :=
    fun next hn => others next (split ▸ Multiset.mem_add.mpr (.inr hn))
  have mine := left.filter (·.scheduler? = some s)
  rw [Multiset.filter_add, Multiset.filter_eq_nil.mpr puts, zero_add] at mine
  refine ⟨⟨?_, mine.le, ?_, ?_⟩, carries.closes closing⟩
  · unfold Worker.tasks
    rw [Multiset.filter_add, Multiset.filter_add, ← Worker.Stage.of_tasks,
      ← Worker.Stage.of_tasks, away, away']
    exact mine.add_left _
  · rw [away, away']
    exact fun _ _ => id
  · rw [away, away']
    exact fun _ _ _ => .inl rfl

theorem leaves (lists : w.Lists s p x) (hp : w.pools[p]? = some pool) {after : Pool}
    {added : Multiset Task} (carries : pool.Carries after added)
    (leaves : Worker.Leaves w.now task pool.worker after.worker)
    (mine : task.scheduler? = some s) (all : ∀ next ∈ added, next.scheduler? = some s) :
    x.Leaves task added (after.worker.stage.of s)
      (after.worker.others.filter (·.scheduler? = some s)) := by
  obtain ⟨pool', there, was, -, others⟩ := lists.pool
  obtain rfl := Option.some.inj (hp.symm.trans there)
  obtain ⟨put, split, left⟩ := carries.hand
  have at_hand : ∀ next ∈ after.worker.stage.tasks, next.scheduler? = some s :=
    fun next hn => all next (split ▸ Multiset.mem_add.mpr (.inl hn))
  have puts : ∀ next ∈ put, next.scheduler? = some s :=
    fun next hn => all next (split ▸ Multiset.mem_add.mpr (.inr hn))
  refine ⟨⟨put, ?_, ?_⟩, fun next t held => ?_, fun length still next pauses positive => ?_⟩
  · rw [Worker.Stage.of_tasks, Multiset.filter_eq_self.mpr at_hand, split]
  · have mine := left.filter (·.scheduler? = some s)
    rwa [Multiset.filter_add, Multiset.filter_eq_self.mpr puts, ← others, ← was] at mine
  · rw [lists.now]
    exact leaves.free next t (Worker.Stage.of_held.mp held).1
  · rw [lists.now]
    refine Worker.Stage.of_held.mpr ⟨leaves.holds length still next pauses positive, ?_⟩
    exact (Task.pausing?_scheduler pauses).2.trans mine

theorem turned_own (lists : w.Lists s p x) (h : w.Sound) (hp : w.pools[p]? = some pool)
    (stage : pool.worker.stage = .busy task) (fits : w.Fits task)
    (does : w.Does (w.carryOn p task) p task) (mine : task.scheduler? = some s)
    (alone : ∀ run c, task = .fetch run c → x.others = 0) :
    Listed held (w.carryOn p task) s p x := by
  obtain ⟨added, turned, deed⟩ := does
  obtain ⟨f, pools, carries⟩ := turned.pools
  obtain ⟨scheduler, upcoming, hs, turn, caches⟩ := deed.docket h lists fits mine alone
  obtain ⟨carries, closing⟩ := carries pool hp
  have hp' : (w.carryOn p task).pools[p]? = some (f pool) := by
    rw [pools, List.getElem?_modify_eq, hp]
    rfl
  obtain ⟨pool', there, was, hand, -⟩ := lists.pool
  obtain rfl := Option.some.inj (hp.symm.trans there)
  have all : ∀ next ∈ added, next.scheduler? = some s :=
    fun next hn => (deed.scheduler? next hn).trans mine
  have on : scheduler.pool = some p ∨ scheduler.pool = none := by
    obtain ⟨before, hb, follows⟩ := deed.follows.1.of_get hs
    obtain rfl := Option.some.inj (lists.scheduler.symm.trans hb)
    obtain same | off := follows.pool
    · exact same ▸ lists.on
    · exact .inr off
  have home : ∀ (q : PoolId) pool, (w.carryOn p task).pools[q]? = some pool →
      ∀ task ∈ pool.worker.tasks, task.scheduler? = some s → q = p := by
    intro q pool' hq next hn mine
    by_contra other
    rw [pools, List.getElem?_modify_ne _ _ (Ne.symm other)] at hq
    exact other (lists.home q pool' hq next hn mine)
  let hand' := (f pool).worker.stage.of s
  let others' := (f pool).worker.others.filter (·.scheduler? = some s)
  have left := lists.leaves hp carries (carryOn_leaves hp hp') mine all
  have at_hand : x.hand = .busy task := hand.trans (Worker.Stage.of_busy.mpr ⟨stage, mine⟩)
  have step : Docket.Step held x ⟨x.now, scheduler, hand', others', x.closing, upcoming⟩ :=
    .turn at_hand turn left
  have now : x.now = (w.carryOn p task).now := lists.now.trans turned.apart.now.symm
  rcases carries.closes closing with same | ⟨closed, free⟩
  · have shown : (w.carryOn p task).Lists s p
        ⟨x.now, scheduler, hand', others', x.closing, upcoming⟩ :=
      ⟨hs, on, now, ⟨f pool, hp', was.trans same.symm, rfl, rfl⟩, home, caches⟩
    exact ⟨_, shown, .single step⟩
  · have shown : (w.carryOn p task).Lists s p ⟨x.now, scheduler, hand', others', true, upcoming⟩ :=
      ⟨hs, on, now, ⟨f pool, hp', closed.symm, rfl, rfl⟩, home, caches⟩
    exact ⟨_, shown, .tail (.single step) (.close (shown.shut_of_free free))⟩

theorem advance (lists : w.Lists s p x) (h : w.Sound) (hq : w.pools[q]? = some pool)
    (ready : pool.worker.isReady w.now = true) :
    Listed held (w.onWorker q fun worker => worker.advance w.now) s p x := by
  refine lists.modify rfl rfl lists.upcoming rfl fun pool' hq' => ?_
  obtain rfl := Option.some.inj (hq.symm.trans hq')
  have keeps := (Worker.advance_sound (h.workers pool (List.mem_of_getElem? hq))).1
  refine ⟨⟨keeps.tasks.filter _, Multiset.filter_le_filter _ (Worker.advance_others keeps.tasks),
    fun task t held => ?_, fun task t held => .inr ?_⟩, .inl keeps.closing⟩
  · exact absurd (Worker.Stage.of_held.mp held).1 (Worker.advance_not_held _ _ task t)
  · obtain ⟨stage, mine⟩ := Worker.Stage.of_held.mp held
    rw [Worker.isReady, stage] at ready
    refine ⟨Worker.Stage.of_busy.mpr ⟨?_, mine⟩, by simpa using ready⟩
    simp only [Worker.advance, stage]

theorem work (lists : w.Lists s p x) (h : w.Sound)
    (alone : ∀ run c, Task.fetch run c ∈ x.hand.tasks → x.others = 0)
    (hq : w.pools[q]? = some pool) (ready : pool.worker.isReady w.now = true) :
    Listed held (w.work q) s p x := by
  unfold World.work
  rw [hq]
  dsimp only
  split
  · rename_i task stage
    have ⟨fits, home⟩ := h.tasks q pool hq task (by rw [Worker.tasks_busy stage]; simp)
    have looked := (h.workers pool (List.mem_of_getElem? hq)).looked
    have does := carryOn_does hq looked fits home
    by_cases mine : task.scheduler? = some s
    · obtain rfl := lists.home q pool hq task (by rw [Worker.tasks_busy stage]; simp) mine
      refine lists.turned_own h hq stage fits does mine fun run c same => alone run c ?_
      obtain ⟨pool', hp, -, hand, -⟩ := lists.pool
      obtain rfl := Option.some.inj (hq.symm.trans hp)
      rw [hand, Worker.Stage.of_busy.mpr ⟨stage, mine⟩, same]
      exact Multiset.mem_singleton_self _
    · exact lists.turned_other hq stage fits does mine
  · exact lists.advance h hq ready

end Lists
end World
end TokenKeeper
