import TokenKeeper.Proofs.Chain.Step
/-! Each step of a world is for each of its caches some steps of the cache's chain, perhaps none. So
what holds along all chains holds of every cache in every world. -/
namespace TokenKeeper.World

/-- The world shows of the cache what the chain can become. -/
def Shown (held : Prop) (w : World) (c : CacheId) (x : Chain) : Prop :=
  ∃ x', w.Shows c x' ∧ Chain.Later held x x'

def Blocked (w : World) (s : SchedulerId) : Prop :=
  ∃ (p : PoolId) (pool : Pool), w.pools[p]? = some pool ∧
    (∃ task free, pool.worker.stage = .held task free) ∧
    ∃ task ∈ pool.worker.tasks, task.scheduler? = some s

variable {w w' : World} {c : CacheId} {x : Chain} {held : Prop}

theorem Shown.next (h : Shown held w c x) (go : ∀ x', w.Shows c x' → Shown held w' c x') :
    Shown held w' c x := by
  obtain ⟨x', shows, later⟩ := h
  obtain ⟨x'', shows', later'⟩ := go x' shows
  exact ⟨x'', shows', later.trans later'⟩

theorem Shown.of_left (hc : w.caches[c]? = some x.cache)
    (hs : w.schedulers[x.cache.scheduler]? = some x.scheduler) (now : x.now = w.now)
    (left : Left x.scheduler.isShutDown (w.live x.cache.scheduler) x.live) :
    Shown held w c x := by
  refine ⟨{ x with live := w.live x.cache.scheduler }, ⟨hc, hs, now, rfl⟩, ?_⟩
  cases off : x.scheduler.isShutDown with
  | true => exact .single (.lose off left.le)
  | false => rw [left.eq off]

namespace Shows

theorem keep (shows : w.Shows c x) (now : w'.now = w.now)
    (hs : w'.schedulers[x.cache.scheduler]? = w.schedulers[x.cache.scheduler]?)
    (hc : w'.caches[c]? = w.caches[c]?)
    (live : Left x.scheduler.isShutDown (w'.live x.cache.scheduler)
      (w.live x.cache.scheduler)) : Shown held w' c x :=
  .of_left (hc.trans shows.cache) (hs.trans shows.scheduler) (shows.now.trans now.symm)
    (shows.live ▸ live)

theorem same (shows : w.Shows c x) (now : w'.now = w.now) (pools : w'.pools = w.pools)
    (hs : w'.schedulers[x.cache.scheduler]? = w.schedulers[x.cache.scheduler]?)
    (hc : w'.caches[c]? = w.caches[c]?) : Shown held w' c x :=
  shows.keep now hs hc (.of_eq (live_congr pools _))

theorem note (shows : w.Shows c x) (notice : Notice) : Shown held (w.note notice) c x :=
  shows.same (w.note_now _) (w.note_pools _) (by rw [note_schedulers]) (by rw [note_caches])

theorem attend (shows : w.Shows c x) (i : Nat) : Shown held (w.attend i) c x :=
  shows.same (w.attend_now _) (w.attend_pools _) (by rw [attend_schedulers]) (by rw [attend_caches])

theorem onScheduler (shows : w.Shows c x) {s : SchedulerId} (other : s ≠ x.cache.scheduler)
    (f : Scheduler → Scheduler) : Shown held (w.onScheduler s f) c x :=
  shows.same rfl rfl (List.getElem?_modify_ne _ _ other) rfl

theorem onWorker (shows : w.Shows c x) (h : w.Sound) (p : PoolId)
    {f : Worker Task → Worker Task}
    (each : ∀ pool, w.pools[p]? = some pool →
      Left pool.worker.closing (f pool.worker).tasks pool.worker.tasks) :
    Shown held (w.onWorker p f) c x :=
  shows.keep rfl rfl rfl (live_keep h rfl shows.scheduler fun pool hp =>
    ⟨0, nofun, by rw [zero_add]; exact each pool hp⟩)

theorem kept (shows : w.Shows c x) (h : w.Sound) (p : PoolId) {f : Pool → Pool}
    (worker : ∀ pool, (f pool).worker = pool.worker) : Shown held (w.onPool p f) c x :=
  shows.keep rfl rfl rfl (live_keep h rfl shows.scheduler fun pool _ =>
    ⟨0, nofun, .of_eq (by rw [worker, zero_add])⟩)

theorem release (shows : w.Shows c x) (h : w.Sound) (p : PoolId) :
    Shown held (w.release p) c x := by
  obtain same | ⟨pool, hp, -, closed⟩ := w.release_eq p
  · rw [same]
    exact ⟨x, shows, .refl⟩
  · rw [closed]
    exact (shows.note _).next fun x' shows' => shows'.onWorker (h.note _) p fun _ _ => .refl _ _

theorem submit (shows : w.Shows c x) (h : w.Sound) {p : PoolId} {task : Task}
    (foreign : task.scheduler? ≠ some x.cache.scheduler) (now : w'.now = w.now)
    (pools : w'.pools = (w.submit none p task).pools)
    (hs : w'.schedulers[x.cache.scheduler]? = w.schedulers[x.cache.scheduler]?)
    (caches : w'.caches = w.caches) : Shown held w' c x := by
  refine shows.keep now hs (by rw [caches])
    (live_keep h pools shows.scheduler fun pool hp => ⟨{task}, fun next hn => ?_, ?_⟩)
  · exact Multiset.mem_singleton.mp hn ▸ foreign
  · simpa using pool.worker.submit_tasks task

theorem rouse (shows : w.Shows c x) (h : w.Sound) (p : PoolId) (which : Task → Bool) :
    Shown held (w.onWorker p fun worker => worker.rouse false which) c x :=
  shows.onWorker h p fun pool _ => pool.worker.rouse_tasks which

theorem advance (shows : w.Shows c x) (h : w.Sound) (p : PoolId) :
    Shown held (w.onWorker p fun worker => worker.advance w.now) c x :=
  shows.onWorker h p fun pool hp =>
    (Worker.advance_sound (h.workers pool (List.mem_of_getElem? hp))).1.tasks

theorem turned (shows : w.Shows c x) (h : w.Sound) {p : PoolId} {pool : Pool} {task : Task}
    (hp : w.pools[p]? = some pool) (stage : pool.worker.stage = .busy task)
    (does : w.Does w' p task) : Shown held w' c x := by
  obtain ⟨added, turned, deed⟩ := does
  obtain ⟨f, pools, carries⟩ := turned.pools
  have before := Worker.tasks_busy stage
  have fits := (h.tasks p pool hp task (by rw [before]; simp)).1
  have same := deed.scheduler?
  have now : x.now = w'.now := shows.now.trans turned.apart.now.symm
  obtain ⟨rest, was, is⟩ := live_modify h hp pools shows.scheduler before (carries pool hp).1.tasks
    fun next hn mine => ⟨task, Multiset.mem_singleton_self task, same next hn ▸ mine⟩
  rw [← shows.live, Multiset.filter_singleton] at was
  by_cases mine : task.scheduler? = some x.cache.scheduler
  · obtain ⟨scheduler, cache, hs, hc, turn⟩ := deed.turn h shows fits mine
    rw [if_pos mine] at was
    rw [Multiset.filter_eq_self.mpr fun next hn => (same next hn).trans mine] at is
    have there : cache.scheduler = x.cache.scheduler := turn.follows.scheduler
    obtain ⟨x', shows', later⟩ : Shown held w' c ⟨x.now, cache, scheduler, added + rest⟩ := by
      refine .of_left hc (there ▸ hs) now ?_
      rw [turn.isShutDown, there]
      exact is
    exact ⟨x', shows', later.head (.turn was turn)⟩
  · rw [if_neg mine, Multiset.empty_eq_zero, zero_add] at was
    rw [Multiset.filter_eq_nil.mpr fun next hn => (same next hn) ▸ mine, zero_add, ← was] at is
    obtain ⟨hs, hc⟩ := deed.other shows fits mine
    exact .of_left (hc.trans shows.cache) (hs.trans shows.scheduler) now is

theorem shutdown (shows : w.Shows c x) (h : w.Sound) (s : SchedulerId) :
    Shown held (w.shutdown none s).1 c x := by
  rcases w.shutdown_cases none s with same | ⟨_, q, -, -, notice, -, shut⟩
  · rw [same]
    exact ⟨x, shows, .refl⟩
  · rw [shut]
    have letGo := h.onScheduler s (f := Scheduler.letGo) fun _ => ⟨rfl, .inr rfl⟩
    have first : Shown held (w.onScheduler s (·.letGo)) c x := by
      by_cases mine : s = x.cache.scheduler
      · subst mine
        refine ⟨{ x with scheduler := x.scheduler.letGo },
          ⟨shows.cache, ?_, shows.now, shows.live⟩, .single .shut⟩
        exact List.getElem?_modify_eq .. |>.trans (by rw [shows.scheduler]; rfl)
      · exact shows.onScheduler mine _
    have rouse := letGo.rouse q (Task.isPendingOf s)
    exact ((first.next fun x' shows' => shows'.rouse letGo q _).next fun x' shows' =>
      shows'.note notice).next fun x' shows' => shows'.release (rouse.note notice) q

theorem asked (shows : w.Shows c x) (h : w.Sound) {s : SchedulerId} (asks : Asks w w' s)
    (other : s ≠ x.cache.scheduler) : Shown held w' c x := by
  obtain same | ⟨scheduler, q, task, f, hs, on, fits, mine, follows, same⟩ := asks
  · obtain rfl | ⟨notice, -, rfl⟩ := same
    · exact ⟨x, shows, .refl⟩
    · exact shows.note notice
  · obtain ⟨notice, -, rfl⟩ := same
    have foreign : task.scheduler? ≠ some x.cache.scheduler := by
      rw [mine]
      exact fun same => other (Option.some.inj same)
    refine shows.submit h foreign (note_now _ _) (note_pools _ _) ?_ (note_caches _ _)
    rw [note_schedulers]
    exact List.getElem?_modify_ne _ _ other

end Shows

theorem due_of_still (h : w.Sound) (still : ∀ pool ∈ w.pools, pool.worker.isReady w.now = false)
    {p : PoolId} {pool : Pool}
    (hp : w.pools[p]? = some pool) {task : Task} (ht : task ∈ pool.worker.tasks) :
    (∃ holder free, pool.worker.stage = .held holder free ∧ w.now < free) ∨
      ∃ due, task.due? = some due ∧ w.now < due ∧
        ∃ next, w.nextTime? = some next ∧ next ≤ due := by
  have member := List.mem_of_getElem? hp
  have sound := h.workers pool member
  have still := still pool member
  unfold Worker.isReady at still
  split at still
  · cases still
  · cases still
  · cases still
  · rename_i stage
    right
    simp only [Bool.or_eq_false_iff, Bool.not_eq_false', List.isEmpty_iff, List.any_eq_false,
      decide_eq_true_eq, Nat.not_le] at still
    obtain ⟨⟨-, inbox⟩, ahead⟩ := still
    obtain ⟨front, queue, aside⟩ := sound.settled.idle stage
    -- Nothing but the resting tasks is left.
    have resting : task ∈ pool.worker.resting.map (·.2) := by
      simpa [Worker.tasks, Worker.Stage.tasks, Worker.others, stage, front, queue, inbox, aside]
        using ht
    obtain ⟨⟨due, _⟩, hr, rfl⟩ := List.mem_map.mp resting
    refine ⟨due, sound.due _ hr, ahead _ hr, ?_⟩
    obtain ⟨least, wakes, le⟩ := min?_le (List.mem_map_of_mem (f := Prod.fst) hr)
    obtain ⟨next, hn, le'⟩ := nextTime?_le_worker member (t := least) (by
      unfold Worker.wakes
      rw [stage]
      exact wakes)
    exact ⟨next, hn, le'.trans le⟩
  · rename_i holder free stage
    exact .inl ⟨holder, free, stage, by simpa using still⟩
  · rename_i stage
    obtain ⟨-, none_left⟩ := sound.settled.gone stage
    simp [Worker.tasks, Worker.Stage.tasks, stage, none_left] at ht

namespace Shows

theorem tick (shows : w.Shows c x) (h : w.Sound) {t : Instant} (quiet : w.move? = none)
    (later : w.now ≤ t) (next : ∀ time, w.nextTime? = some time → t ≤ time) :
    Shown (w.Blocked x.cache.scheduler) { w with now := t } c x := by
  refine ⟨{ x with now := t }, ⟨shows.cache, shows.scheduler, rfl, shows.live⟩,
    .single (.tick (shows.now ▸ later) ?_)⟩
  by_contra neither
  rw [not_or] at neither
  refine neither.2 fun task ht => ?_
  rw [shows.live, mem_live] at ht
  obtain ⟨p, pool, hp, ht, mine⟩ := ht
  obtain ⟨holder, free, stage, -⟩ | ⟨due, hd, ahead, time, first, le⟩ :=
    due_of_still h (move?_none quiet).1 hp ht
  · exact (neither.1 ⟨p, pool, hp, ⟨holder, free, stage⟩, task, ht, mine⟩).elim
  · exact ⟨due, hd, shows.now ▸ ahead, (next time first).trans le⟩

theorem work (shows : w.Shows c x) (h : w.Sound) {p : PoolId} {pool : Pool}
    (hp : w.pools[p]? = some pool) : Shown held (w.work p) c x := by
  rcases h.work_cases hp with ⟨task, stage, -, does⟩ | own
  · exact shows.turned h hp stage does
  · rw [own]
    exact shows.advance h p

theorem not_mine (shows : w.Shows c x) (h : w.Sound) {s : SchedulerId} {scheduler : Scheduler}
    {program : Nat → List Action} (hs : w.schedulers[s]? = some scheduler)
    (job : scheduler.job = .script program) : s ≠ x.cache.scheduler := by
  rintro rfl
  rw [← Option.some.inj (shows.scheduler.symm.trans hs), shows.job h] at job
  cases job

theorem add (shows : w.Shows c x) (now : w'.now = w.now)
    (schedulers : ∃ new, w'.schedulers = w.schedulers ++ new)
    (caches : ∃ new, w'.caches = w.caches ++ new)
    (live : w'.live x.cache.scheduler = w.live x.cache.scheduler) : Shown held w' c x := by
  obtain ⟨new, schedulers⟩ := schedulers
  obtain ⟨new', caches⟩ := caches
  refine shows.keep now ?_ ?_ (.of_eq live)
  · rw [schedulers, List.getElem?_append_left (List.getElem?_eq_some_iff.mp shows.scheduler).1]
  · rw [caches, List.getElem?_append_left (List.getElem?_eq_some_iff.mp shows.cache).1]

theorem openPool (shows : w.Shows c x) (identity : Identity) :
    Shown held { w with pools := w.pools ++ [{ identity := identity, worker := .fresh w.now }] }
      c x := by
  refine shows.add rfl ⟨[], (List.append_nil _).symm⟩ ⟨[], (List.append_nil _).symm⟩ ?_
  unfold World.live World.tasks
  rw [← Multiset.coe_add, Multiset.add_bind, Multiset.coe_singleton, Multiset.singleton_bind,
    Worker.fresh_tasks, add_zero]

theorem openCache (shows : w.Shows c x) (h : w.Sound) {config : Config} {issuer : Issuer}
    {c' : CacheId} (opens : w.openCache config issuer = (.ok c', w')) : Shown held w' c x := by
  obtain ⟨p, opened, had, -, rfl⟩ := openCache_ok opens
  have sound := h.poolFor had
  obtain ⟨same, pool, hp, kept⟩ := poolFor_ok had
  obtain ⟨before, shows', later⟩ : Shown held opened c x := by
    obtain rfl | ⟨notice, -, rfl⟩ := same
    · exact ⟨x, shows, .refl⟩
    · exact (shows.openPool config.pool).next fun x' shows' => shows'.note notice
  have sound' : (opened.withCache p config issuer).Sound :=
    sound.append hp kept _ _ (.inr ⟨rfl, _, rfl, rfl⟩)
  obtain ⟨added, shows'', later'⟩ : Shown held (opened.withCache p config issuer) c before :=
    shows'.add rfl ⟨_, rfl⟩ ⟨_, rfl⟩ rfl
  have old : added.cache = before.cache := by
    obtain ⟨cache, hc, same⟩ :=
      Grows.append (R := Eq) (fun _ => rfl) _ _ c before.cache shows'.cache
    exact (Option.some.inj (shows''.cache.symm.trans hc)).trans same.symm
  obtain ⟨after, started, later''⟩ := shows''.asked sound' (start_asks _ _) (by
    rw [old]
    exact (List.getElem?_eq_some_iff.mp shows'.scheduler).1.ne')
  exact ⟨after, started, (later.trans later').trans later''⟩

theorem dropCache (shows : w.Shows c x) {c' : CacheId} {cache : Cache} {scheduler : Scheduler}
    (hc : w.caches[c']? = some cache) (hs : w.schedulers[cache.scheduler]? = some scheduler)
    (off : scheduler.isShutDown = true) :
    Shown held (w.onCache c' fun cache => { cache with dropped := true }) c x := by
  by_cases mine : c' = c
  · subst mine
    obtain rfl := Option.some.inj (shows.cache.symm.trans hc)
    obtain rfl := Option.some.inj (shows.scheduler.symm.trans hs)
    refine ⟨{ x with cache := { x.cache with dropped := true } },
      ⟨?_, shows.scheduler, shows.now, shows.live⟩, .single (.drop off)⟩
    exact (List.getElem?_modify_eq ..).trans (by rw [shows.cache]; rfl)
  · exact shows.same rfl rfl rfl (List.getElem?_modify_ne _ _ mine)

/-- Every step of a world is a run of the chain of each of its caches. -/
theorem step (shows : w.Shows c x) (h : w.Sound) (step : Step w w') :
    Shown (w.Blocked x.cache.scheduler) w' c x := by
  cases step with
  | move moved =>
    obtain ⟨p, pool, hp, -, rfl⟩ | ⟨-, i, -, -, -, -, -, rfl⟩ := move?_cases moved
    · exact shows.work h hp
    · exact shows.attend i
  | tick quiet later next => exact shows.tick h quiet later next
  | arrive => exact shows.attend _
  | expect | setOutage => exact shows.same rfl rfl rfl rfl
  | note => exact shows.note _
  | openPool identity => exact shows.openPool identity
  | keepHandle | staff => exact shows.kept h _ fun _ => rfl
  | giveHandle p =>
    refine Shown.next ?_ fun x' shows' => shows'.release (h.giveHandle p) p
    exact shows.kept h p fun _ => rfl
  | unregister p =>
    refine Shown.next ?_ fun x' shows' => shows'.release (h.unregister p) p
    exact shows.kept h p fun _ => rfl
  | inquire | occupy => exact shows.submit h (by simp [Task.scheduler?]) rfl rfl rfl rfl
  | addScheduler hp kept program =>
    exact shows.add rfl ⟨_, rfl⟩ ⟨[], (List.append_nil _).symm⟩ rfl
  | start hs job => exact shows.asked h (start_asks _ _) (shows.not_mine h hs job)
  | schedule hs job => exact shows.asked h (schedule_asks _ _ _) (shows.not_mine h hs job)
  | shutdown s => exact shows.shutdown h s
  | dropScheduler hs job => exact shows.onScheduler (shows.not_mine h hs job) _
  | openCache opens => exact shows.openCache h opens
  | dropCache hc hs off => exact shows.dropCache hc hs off

end Shows
end TokenKeeper.World
