import TokenKeeper.Proofs.World.Sound
/-! Every step leaves a sound world. The steps of tasks go by their deeds, the others by the few
changes they consist of. -/
namespace TokenKeeper

namespace Task
variable {task : Task}

theorem awaits?_scheduler {now : Instant} {submission : Submission} {due : Instant}
    (h : task.awaits? now = some (submission, due)) :
    task.scheduler? = some submission.scheduler := by
  unfold awaits? at h
  split at h <;> cases h <;> rfl

theorem awaits?_fits {w : World} {submission : Submission} {due : Instant}
    (h : task.awaits? w.now = some (submission, due)) (fits : w.Fits task) :
    w.Fits (.begin submission) := by
  unfold awaits? at h
  split at h <;> cases h <;> exact fits

theorem Begins.scheduler? {now : Instant} {off : Bool} {submission : Submission}
    (h : task.Begins now off submission) : task.scheduler? = some submission.scheduler := by
  cases h with
  | atOnce => rfl
  | waited waits => exact awaits?_scheduler waits

theorem pausing?_scheduler {pause : Pause} {still : Pause → Task} {next : Task}
    (h : task.pausing? = some (pause, still, next)) :
    (∀ pause, (still pause).scheduler? = task.scheduler?) ∧ next.scheduler? = task.scheduler? := by
  unfold pausing? at h
  split at h <;> cases h <;> exact ⟨fun _ => rfl, rfl⟩

theorem pausing?_fits {w : World} {pause : Pause} {still : Pause → Task} {next : Task}
    (h : task.pausing? = some (pause, still, next)) (fits : w.Fits task) :
    (∀ pause, w.Fits (still pause)) ∧ w.Fits next := by
  unfold pausing? at h
  split at h <;> cases h <;> exact ⟨fun _ => fits, fits⟩

end Task

namespace Deed
variable {w : World} {task : Task} {added : Multiset Task} {schedulers : List Scheduler}
  {caches : List Cache}

theorem follows (deed : Deed w task added schedulers caches) :
    Pointwise Scheduler.Follows w.schedulers schedulers ∧
      Pointwise Cache.Follows w.caches caches := by
  have still : Pointwise Cache.Follows w.caches w.caches := .refl .refl _
  have onScheduler (s : SchedulerId) {f : Scheduler → Scheduler}
      (h : ∀ scheduler : Scheduler, scheduler.Follows (f scheduler)) :
      Pointwise Scheduler.Follows w.schedulers (w.schedulers.modify s f) :=
    .modify .refl fun scheduler _ => h scheduler
  have onCache (c : CacheId) {f : Cache → Cache} (h : ∀ cache : Cache, cache.Follows (f cache)) :
      Pointwise Cache.Follows w.caches (w.caches.modify c f) :=
    .modify .refl fun cache _ => h cache
  cases deed with
  | enterScript | enterRefresh | enterDropped | abandon | leave | panic | schedule | start =>
    exact ⟨onScheduler _ fun _ => ⟨rfl, .inl rfl⟩, still⟩
  | shutdown => exact ⟨onScheduler _ fun _ => ⟨rfl, .inr rfl⟩, still⟩
  | wait | pause | resume | inVain | answer | leaveGuest => exact ⟨.refl .refl _, still⟩
  | call | endCall => exact ⟨.refl .refl _, onCache _ fun _ => ⟨rfl, rfl, rfl⟩⟩
  | conclude | concludeLast =>
    exact ⟨onScheduler _ fun _ => ⟨rfl, .inl rfl⟩, onCache _ fun cache => .conclude cache _ _ _⟩

theorem scheduler? (deed : Deed w task added schedulers caches) :
    ∀ next ∈ added, next.scheduler? = task.scheduler? := by
  cases deed with
  | enterDropped | abandon | leave | panic | concludeLast | answer | leaveGuest => nofun
  | shutdown | inVain | call | endCall | conclude =>
    intro next hn
    rw [Multiset.mem_singleton.mp hn]
    rfl
  | enterScript begins | enterRefresh begins =>
    intro next hn
    rw [Multiset.mem_singleton.mp hn, begins.scheduler?]
    rfl
  | wait waits =>
    intro next hn
    rw [Multiset.mem_singleton.mp hn, Task.awaits?_scheduler waits]
    rfl
  | pause pauses =>
    intro next hn
    rw [Multiset.mem_singleton.mp hn]
    exact (Task.pausing?_scheduler pauses).1 _
  | resume pauses =>
    intro next hn
    rw [Multiset.mem_singleton.mp hn]
    exact (Task.pausing?_scheduler pauses).2
  | schedule | start =>
    intro next hn
    obtain hn | hn := Multiset.mem_add.mp hn <;> rw [Multiset.mem_singleton.mp hn] <;> rfl

theorem fits (deed : Deed w task added schedulers caches) (h : w.Fits task)
    (jobs : ∀ (s : SchedulerId) scheduler c, w.schedulers[s]? = some scheduler →
      scheduler.job = .refresh c → ∃ cache, w.caches[c]? = some cache ∧ cache.scheduler = s) :
    ∀ next ∈ added, w.Fits next := by
  have single {task : Task} (h : w.Fits task) : ∀ next ∈ ({task} : Multiset Task), w.Fits next :=
    fun next hn => Multiset.mem_singleton.mp hn ▸ h
  cases deed with
  | enterDropped | abandon | leave | panic | concludeLast | answer | leaveGuest => nofun
  | enterScript _ hs job => exact single ⟨_, _, hs, job⟩
  | enterRefresh _ hs job =>
    obtain ⟨cache, hc, same⟩ := jobs _ _ _ hs job
    exact single ⟨_, cache, hs, job, hc, same⟩
  | wait waits => exact single (Task.awaits?_fits waits h)
  | pause pauses => exact single ((Task.pausing?_fits pauses h).1 _)
  | resume pauses => exact single (Task.pausing?_fits pauses h).2
  | schedule hs | start hs =>
    intro next hn
    obtain hn | hn := Multiset.mem_add.mp hn <;> rw [Multiset.mem_singleton.mp hn]
    · exact ⟨_, hs⟩
    · exact h
  | conclude hc hs => exact single ⟨_, hs⟩
  | shutdown | inVain | call | endCall => exact single h

end Deed

theorem Pool.Carries.sound {before after : Pool} {added : Multiset Task} {now : Instant}
    (h : before.Carries after added) (sound : before.worker.Sound now) :
    after.worker.Sound now where
  settled := .of_active h.active
  looked := h.looked ▸ sound.looked
  leaving := fun left => h.closing (sound.leaving (h.leaving ▸ left))
  due := fun r hr => (h.due r hr).elim (sound.due r) id

theorem Pool.Carries.isKept {before after : Pool} {added : Multiset Task}
    (h : before.Carries after added) : after.isKept = before.isKept := by
  unfold Pool.isKept
  rw [h.registered, h.handles]

namespace World
variable {w w' : World}

theorem attend_eq (w : World) (i : Nat) : ∃ f, w.attend i = w.onReader i f ∨
    ∃ notice, w.attend i = (w.note notice).onReader i f := by
  have same : w = w.onReader i id := by
    unfold onReader
    rw [List.modify_id]
  unfold attend
  split
  · exact ⟨id, .inl same⟩
  · split
    · exact ⟨id, .inl same⟩
    · split
      · unfold arrive noteExpired serve
        split
        · split
          · exact ⟨_, .inr ⟨_, rfl⟩⟩
          · exact ⟨_, .inl rfl⟩
        · split
          · split
            · exact ⟨_, .inl rfl⟩
            · exact ⟨_, .inr ⟨_, rfl⟩⟩
          · exact ⟨_, .inl rfl⟩
      · unfold serve
        split
        · exact ⟨_, .inl rfl⟩
        · exact ⟨_, .inr ⟨_, rfl⟩⟩
      · exact ⟨id, .inl same⟩

section Attend
variable (w : World) (i : Nat)

@[simp] theorem attend_now : (w.attend i).now = w.now := by
  obtain ⟨f, h | ⟨notice, h⟩⟩ := w.attend_eq i <;> rw [h]
  · rfl
  · exact w.note_now notice

@[simp] theorem attend_verbosity : (w.attend i).verbosity = w.verbosity := by
  obtain ⟨f, h | ⟨notice, h⟩⟩ := w.attend_eq i <;> rw [h]
  · rfl
  · exact w.note_verbosity notice

@[simp] theorem attend_pools : (w.attend i).pools = w.pools := by
  obtain ⟨f, h | ⟨notice, h⟩⟩ := w.attend_eq i <;> rw [h]
  · rfl
  · exact w.note_pools notice

@[simp] theorem attend_schedulers : (w.attend i).schedulers = w.schedulers := by
  obtain ⟨f, h | ⟨notice, h⟩⟩ := w.attend_eq i <;> rw [h]
  · rfl
  · exact w.note_schedulers notice

@[simp] theorem attend_caches : (w.attend i).caches = w.caches := by
  obtain ⟨f, h | ⟨notice, h⟩⟩ := w.attend_eq i <;> rw [h]
  · rfl
  · exact w.note_caches notice

end Attend

/-- What a request for a run from outside comes to: a notice at most, or a task on the pool of the
scheduler. -/
def Asks (w w' : World) (s : SchedulerId) : Prop :=
  (w' = w ∨ ∃ notice : Notice, notice.isElapsed = false ∧ w' = w.note notice) ∨
    ∃ scheduler q task f, w.schedulers[s]? = some scheduler ∧ scheduler.pool = some q ∧
      w.Fits task ∧ task.scheduler? = some s ∧ (∀ x : Scheduler, x.Follows (f x)) ∧
      ∃ notice : Notice, notice.isElapsed = false ∧
        w' = ((w.submit none q task).onScheduler s f).note notice

theorem Requested.asks {s : SchedulerId} (asked : Requested w none s w') : Asks w w' s := by
  cases asked with
  | unknown => exact .inl (.inl rfl)
  | vain notice quiet => exact .inl (.inr ⟨notice, quiet, rfl⟩)
  | accepted hs on task fits mine keeps notice quiet =>
    exact .inr ⟨_, _, task, _, hs, on, fits, mine, fun x => ⟨(keeps x).1, .inl (keeps x).2⟩,
      notice, quiet, rfl⟩

theorem start_asks (w : World) (s : SchedulerId) : Asks w (w.start none s) s :=
  (start_requested w none s).asks

theorem schedule_asks (w : World) (s : SchedulerId) (delay : Span) :
    Asks w (w.schedule none s delay) s := (schedule_requested w none s delay).asks

namespace Sound

theorem turned (h : w.Sound) {p : PoolId} {pool : Pool} {task : Task}
    (hp : w.pools[p]? = some pool) (stage : pool.worker.stage = .busy task)
    (does : w.Does w' p task) : w'.Sound := by
  obtain ⟨added, turned, deed⟩ := does
  obtain ⟨f, pools, carries⟩ := turned.pools
  have ⟨schedulers, caches⟩ := deed.follows
  have ⟨fits, home⟩ := h.tasks p pool hp task (by rw [Worker.tasks_busy stage]; simp)
  refine h.modify turned.apart.now pools schedulers caches fun pool' hp' => ?_
  obtain rfl : pool = pool' := Option.some.inj (hp.symm.trans hp')
  obtain ⟨carries, closing⟩ := carries pool hp
  refine ⟨carries.sound (h.workers pool (List.mem_of_getElem? hp)), fun kept => ?_,
    fun closed => ?_, fun next hn => ?_⟩
  · rwa [carries.isKept] at kept
  · obtain same | free := closing
    · exact .inl (same.symm.trans closed)
    · exact .inr free
  · obtain new | other := Multiset.mem_add.mp (carries.tasks.mem hn)
    · refine .inr ⟨(deed.fits fits h.jobs next new).keep schedulers.grows caches.grows, ?_⟩
      have same := deed.scheduler? next new
      have home' : w.Home p next := fun s scheduler q hs => home s scheduler q (same ▸ hs)
      exact home'.keep schedulers
    · exact .inl (Multiset.mem_add.mpr (.inr other))

theorem onWorker (h : w.Sound) (p : PoolId) {f : Worker Task → Worker Task}
    (each : ∀ pool, w.pools[p]? = some pool → (f pool.worker).Sound w.now ∧
      ((f pool.worker).closing = true → pool.worker.closing = true ∨ w.isOwned p = false) ∧
      ∀ task ∈ (f pool.worker).tasks,
        task ∈ pool.worker.tasks ∨ w.Fits task ∧ w.Home p task) : (w.onWorker p f).Sound := by
  have same : (w.onWorker p f).isOwned p = w.isOwned p := by
    refine isOwned_congr (w := w) rfl ?_
    simp only [World.onWorker, World.onPool, List.getElem?_modify_eq]
    cases w.pools[p]? <;> rfl
  refine h.modify rfl rfl (.refl .refl _) (.refl .refl _) fun pool hp => ?_
  obtain ⟨sound, closing, tasks⟩ := each pool hp
  exact ⟨sound, id, by rwa [same], tasks⟩

theorem advance (h : w.Sound) (p : PoolId) :
    (w.onWorker p fun worker => worker.advance w.now).Sound := by
  refine h.onWorker p fun pool hp => ?_
  have sound := h.workers pool (List.mem_of_getElem? hp)
  have keeps := (Worker.advance_sound sound).1
  exact ⟨sound.advance, fun closing => .inl (keeps.closing ▸ closing),
    fun task ht => .inl (keeps.tasks.mem ht)⟩

/-- A worker's step is one of the task at hand or one of its own. -/
theorem work_cases (h : w.Sound) {p : PoolId} {pool : Pool} (hp : w.pools[p]? = some pool) :
    (∃ task, pool.worker.stage = .busy task ∧ w.Fits task ∧ w.Does (w.work p) p task) ∨
      w.work p = w.onWorker p fun worker => worker.advance w.now := by
  unfold World.work
  simp only [hp]
  split
  · rename_i task stage
    have ⟨fits, home⟩ := h.tasks p pool hp task (by rw [Worker.tasks_busy stage]; simp)
    have looked := (h.workers pool (List.mem_of_getElem? hp)).looked
    exact .inl ⟨task, stage, fits, carryOn_does hp looked fits home⟩
  · exact .inr rfl

theorem work (h : w.Sound) {p : PoolId} {pool : Pool} (hp : w.pools[p]? = some pool) :
    (w.work p).Sound := by
  rcases h.work_cases hp with ⟨task, stage, -, does⟩ | own
  · exact h.turned hp stage does
  · rw [own]
    exact h.advance p

theorem work_caches (h : w.Sound) {p : PoolId} {pool : Pool} (hp : w.pools[p]? = some pool) :
    Pointwise Cache.Follows w.caches (w.work p).caches := by
  rcases h.work_cases hp with ⟨task, -, -, added, -, deed⟩ | own
  · exact deed.follows.2
  · rw [own]
    exact .refl .refl _

theorem work_apart (h : w.Sound) {p : PoolId} {pool : Pool} (hp : w.pools[p]? = some pool) :
    Apart w (w.work p) := by
  rcases h.work_cases hp with ⟨task, -, -, added, turned, -⟩ | own
  · exact turned.apart
  · rw [own]
    exact ⟨rfl, rfl, rfl, rfl, rfl⟩

theorem attend (h : w.Sound) (i : Nat) : (w.attend i).Sound :=
  h.keep (w.attend_now i) (w.attend_pools i) (by rw [attend_schedulers]; exact .refl .refl _)
    (by rw [attend_caches]; exact .refl .refl _)

theorem note (h : w.Sound) (notice : Notice) : (w.note notice).Sound :=
  h.keep (w.note_now _) (w.note_pools _) (by rw [note_schedulers]; exact .refl .refl _)
    (by rw [note_caches]; exact .refl .refl _)

theorem onScheduler (h : w.Sound) (s : SchedulerId) {f : Scheduler → Scheduler}
    (follows : ∀ scheduler : Scheduler, scheduler.Follows (f scheduler)) :
    (w.onScheduler s f).Sound :=
  h.keep rfl rfl (.modify .refl fun scheduler _ => follows scheduler) (.refl .refl _)

theorem onCache (h : w.Sound) (c : CacheId) {f : Cache → Cache}
    (follows : ∀ cache : Cache, cache.Follows (f cache)) : (w.onCache c f).Sound :=
  h.keep rfl rfl (.refl .refl _) (.modify .refl fun cache _ => follows cache)

theorem release (h : w.Sound) (p : PoolId) : (w.release p).Sound := by
  obtain same | ⟨pool, hp, free, closed⟩ := w.release_eq p
  · rwa [same]
  · rw [closed]
    refine (h.note _).onWorker p fun pool hp => ?_
    rw [note_pools] at hp
    rw [note_now]
    refine ⟨(h.workers pool (List.mem_of_getElem? hp)).close, fun _ => .inr ?_, fun _ => .inl⟩
    rw [← free]
    exact isOwned_congr (note_schedulers _ _) (by rw [note_pools])

theorem onPool (h : w.Sound) (p : PoolId) {f : Pool → Pool}
    (worker : ∀ pool, (f pool).worker = pool.worker)
    (kept : ∀ pool, w.pools[p]? = some pool → (f pool).isKept = true → pool.isKept = true) :
    (w.onPool p f).Sound := by
  refine h.modify rfl rfl (.refl .refl _) (.refl .refl _) fun pool hp => ?_
  rw [worker]
  exact ⟨h.workers pool (List.mem_of_getElem? hp), kept pool hp, .inl, fun _ => .inl⟩

theorem giveHandle (h : w.Sound) (p : PoolId) :
    (w.onPool p fun pool => { pool with handles := pool.handles - 1 }).Sound := by
  refine h.onPool p (fun _ => rfl) fun pool _ kept => ?_
  simp only [Pool.isKept, Bool.or_eq_true, decide_eq_true_eq] at kept ⊢
  exact kept.imp id fun more => by omega

theorem unregister (h : w.Sound) (p : PoolId) :
    (w.onPool p fun pool => { pool with registered := false }).Sound := by
  refine h.onPool p (fun _ => rfl) fun pool _ kept => ?_
  simp only [Pool.isKept, Bool.false_or] at kept
  rw [Pool.isKept, kept, Bool.or_true]

theorem submit (h : w.Sound) (p : PoolId) {task : Task} (fits : w.Fits task)
    (home : w.Home p task) : (w.submit none p task).Sound := by
  refine h.onWorker p fun pool hp => ?_
  rw [if_neg (by simp)]
  have sound := h.workers pool (List.mem_of_getElem? hp)
  obtain ⟨inbox, eq⟩ := pool.worker.submitAll_eq [task]
  refine ⟨sound.submitAll [task], fun closing => .inl ?_, fun next hn => ?_⟩
  · rw [Worker.submit, eq] at closing
    exact closing
  · obtain new | old := Multiset.mem_add.mp ((pool.worker.submit_tasks task).mem hn)
    · rw [Multiset.mem_singleton] at new
      exact .inr ⟨new ▸ fits, new ▸ home⟩
    · exact .inl old

theorem ask (h : w.Sound) {s : SchedulerId} {scheduler : Scheduler} {q : PoolId}
    (hs : w.schedulers[s]? = some scheduler) (on : scheduler.pool = some q) (task : Task)
    (fits : w.Fits task) (same : task.scheduler? = some s) : (w.submit none q task).Sound := by
  refine h.submit q fits ?_
  intro s' scheduler' q' hs' there on'
  obtain rfl : s = s' := Option.some.inj (same.symm.trans hs')
  obtain rfl : scheduler = scheduler' := Option.some.inj (hs.symm.trans there)
  exact Option.some.inj (on'.symm.trans on)

theorem rouse (h : w.Sound) (p : PoolId) (which : Task → Bool) :
    (w.onWorker p fun worker => worker.rouse false which).Sound := by
  refine h.onWorker p fun pool hp => ?_
  have sound := h.workers pool (List.mem_of_getElem? hp)
  exact ⟨sound.rouse which, .inl, fun task ht => .inl ((pool.worker.rouse_tasks which).mem ht)⟩

theorem asked (h : w.Sound) {s : SchedulerId} (asks : Asks w w' s) : w'.Sound := by
  obtain same | ⟨scheduler, q, task, f, hs, on, fits, mine, follows, same⟩ := asks
  · obtain rfl | ⟨notice, -, rfl⟩ := same
    · exact h
    · exact h.note notice
  · obtain ⟨notice, -, rfl⟩ := same
    exact ((h.ask hs on task fits mine).onScheduler s follows).note notice

theorem shutdown (h : w.Sound) (s : SchedulerId) : (w.shutdown none s).1.Sound := by
  rcases w.shutdown_cases none s with same | ⟨_, q, -, -, notice, -, shut⟩
  · rwa [same]
  · rw [shut]
    exact (((h.onScheduler s (f := Scheduler.letGo) fun _ => ⟨rfl, .inr rfl⟩).rouse q _).note
      notice).release q

theorem openPool (h : w.Sound) (identity : Identity) :
    Sound { w with pools := w.pools ++ [{ identity := identity, worker := .fresh w.now }] } := by
  refine h.of_pools (.refl .refl _) (.refl .refl _) (by simp) fun p pool hp => ?_
  obtain old | ⟨-, rfl⟩ := getElem?_concat_cases hp
  · refine ⟨h.workers pool (List.mem_of_getElem? old), fun closing => ?_, h.tasks p pool old⟩
    rw [← h.owned p pool old closing]
    exact isOwned_congr rfl (by rw [hp, old])
  · exact ⟨Worker.fresh_sound w.now, nofun, nofun⟩

theorem tick (h : w.Sound) {t : Instant} (later : w.now ≤ t) : Sound { w with now := t } where
  workers := fun pool hp => (h.workers pool hp).later later
  owned := h.owned
  pools := h.pools
  tasks := fun p pool hp task ht =>
    have ⟨fits, home⟩ := h.tasks p pool hp task ht
    ⟨fits.keep (Pointwise.refl .refl _).grows (Pointwise.refl .refl _).grows, home⟩
  caches := h.caches
  jobs := h.jobs

theorem append (h : w.Sound) {p : PoolId} {pool : Pool} (hp : w.pools[p]? = some pool)
    (kept : pool.isKept = true) (job : Job) (new : List Cache)
    (fits : (∃ program, job = .script program) ∧ new = [] ∨
      job = .refresh w.caches.length ∧ ∃ cache : Cache, cache.scheduler = w.schedulers.length ∧
        new = [cache]) :
    Sound { w with
      schedulers := w.schedulers ++ [{ job := job, pool := some p }]
      caches := w.caches ++ new } where
  workers := h.workers
  owned := fun q pool' hq closing => by
    have free := h.owned q pool' hq closing
    rw [← Bool.not_eq_true, isOwned_iff] at free ⊢
    refine fun owned => free ?_
    obtain held | ⟨s, scheduler, hs, on⟩ := owned
    · exact .inl held
    · obtain old | ⟨-, rfl⟩ := getElem?_concat_cases hs
      · exact .inr ⟨s, scheduler, old, on⟩
      · cases on
        exact .inl ⟨pool, hp, kept⟩
  pools := fun s scheduler q hs on => by
    obtain old | ⟨-, rfl⟩ := getElem?_concat_cases hs
    · exact h.pools s scheduler q old on
    · cases on
      exact (List.getElem?_eq_some_iff.mp hp).1
  tasks := fun q pool' hq task ht => by
    have ⟨fits, home⟩ := h.tasks q pool' hq task ht
    refine ⟨fits.keep (.append .refl _ _) (.append .refl _ _), fun s scheduler q' same hs on => ?_⟩
    obtain ⟨scheduler', there⟩ := fits.scheduler same
    obtain old | ⟨rfl, -⟩ := getElem?_concat_cases hs
    · exact home s scheduler q' same old on
    · simp at there
  caches := fun c cache hc => by
    obtain ⟨-, rfl⟩ | ⟨rfl, added, same, rfl⟩ := fits
    · rw [List.append_nil] at hc
      obtain ⟨scheduler, hs, job⟩ := h.caches c cache hc
      obtain ⟨scheduler', hs', follows⟩ := Grows.append Scheduler.Follows.refl _ _ _ _ hs
      exact ⟨scheduler', hs', follows.job.trans job⟩
    · obtain old | ⟨rfl, rfl⟩ := getElem?_concat_cases hc
      · obtain ⟨scheduler, hs, job⟩ := h.caches c cache old
        obtain ⟨scheduler', hs', follows⟩ := Grows.append Scheduler.Follows.refl _ _ _ _ hs
        exact ⟨scheduler', hs', follows.job.trans job⟩
      · exact ⟨_, by rw [same, List.getElem?_concat_length], rfl⟩
  jobs := fun s scheduler c hs is => by
    obtain old | ⟨rfl, rfl⟩ := getElem?_concat_cases hs
    · obtain ⟨cache, hc, same⟩ := h.jobs s scheduler c old is
      obtain ⟨cache', hc', follows⟩ := Grows.append Cache.Follows.refl _ _ _ _ hc
      exact ⟨cache', hc', follows.scheduler.trans same⟩
    · obtain ⟨⟨program, rfl⟩, -⟩ | ⟨rfl, added, same, rfl⟩ := fits
      · cases is
      · cases is
        exact ⟨added, List.getElem?_concat_length, same⟩

end Sound

theorem poolFor_ok {identity : Identity} {p : PoolId} (h : w.poolFor identity = (.ok p, w')) :
    (w' = w ∨ ∃ notice : Notice, notice.isElapsed = false ∧ w' = World.note
      { w with pools := w.pools ++ [{ identity := identity, worker := .fresh w.now }] } notice) ∧
      ∃ pool, w'.pools[p]? = some pool ∧ pool.isKept = true := by
  unfold poolFor at h
  dsimp only at h
  split at h
  · cases h
  · split at h
    · rename_i found
      cases h
      obtain ⟨bound, registered, -⟩ := List.findIdx?_eq_some_iff_getElem.mp found
      refine ⟨.inl rfl, w.pools[p], List.getElem?_eq_getElem bound, ?_⟩
      rw [Bool.and_eq_true] at registered
      rw [Pool.isKept, registered.1, Bool.true_or]
    · split at h
      · cases h
      · split at h
        · cases h
        · cases h
          exact ⟨.inr ⟨_, rfl, rfl⟩, _, by rw [note_pools, List.getElem?_concat_length], rfl⟩

theorem Sound.poolFor (h : w.Sound) {identity : Identity} {p : PoolId}
    (asked : w.poolFor identity = (.ok p, w')) : w'.Sound := by
  obtain ⟨rfl | ⟨notice, -, rfl⟩, -⟩ := poolFor_ok asked
  · exact h
  · exact (h.openPool identity).note notice

def withCache (w : World) (p : PoolId) (config : Config) (issuer : Issuer) : World :=
  { w with
    schedulers := w.schedulers ++ [{ job := .refresh w.caches.length, pool := some p }]
    caches := w.caches ++
      [{ config := config, issuer := issuer, scheduler := w.schedulers.length }] }

theorem openCache_ok {config : Config} {issuer : Issuer} {c : CacheId}
    (h : w.openCache config issuer = (.ok c, w')) :
    ∃ p opened, w.poolFor config.pool = (.ok p, opened) ∧ c = opened.caches.length ∧
      w' = (opened.withCache p config issuer).start none opened.schedulers.length := by
  unfold openCache at h
  split at h
  · cases h
  · rename_i p opened asked
    cases h
    exact ⟨p, opened, asked, rfl, rfl⟩

/-- Whatever happens, the world stays sound. -/
theorem Step.sound (h : w.Sound) (step : Step w w') : w'.Sound := by
  cases step with
  | move moved =>
    obtain ⟨p, pool, hp, -, rfl⟩ | ⟨-, i, -, -, -, -, -, rfl⟩ := move?_cases moved
    · exact h.work hp
    · exact h.attend i
  | tick _ later => exact h.tick later
  | arrive => exact h.attend _
  | expect | setOutage => exact h.keep rfl rfl (.refl .refl _) (.refl .refl _)
  | note => exact h.note _
  | openPool identity => exact h.openPool identity
  | keepHandle hp kept =>
    refine h.onPool _ (fun _ => rfl) fun pool hp' _ => ?_
    exact Option.some.inj (hp.symm.trans hp') ▸ kept
  | giveHandle p => exact (h.giveHandle p).release p
  | unregister p => exact (h.unregister p).release p
  | staff p => exact h.onPool p (fun _ => rfl) fun _ _ => id
  | inquire p => exact h.submit p trivial nofun
  | occupy p => exact h.submit p trivial nofun
  | addScheduler hp kept program =>
    have appended := h.append hp kept (.script program) [] (.inl ⟨⟨program, rfl⟩, rfl⟩)
    rw [List.append_nil] at appended
    exact appended
  | start => exact h.asked (start_asks _ _)
  | schedule => exact h.asked (schedule_asks _ _ _)
  | shutdown s => exact h.shutdown s
  | dropScheduler => exact h.onScheduler _ fun _ => ⟨rfl, .inl rfl⟩
  | openCache opens =>
    obtain ⟨p, opened, asked, -, rfl⟩ := openCache_ok opens
    obtain ⟨-, pool, hp, kept⟩ := poolFor_ok asked
    exact ((h.poolFor asked).append hp kept _ _ (.inr ⟨rfl, _, rfl, rfl⟩)).asked (start_asks _ _)
  | dropCache => exact h.onCache _ fun _ => ⟨rfl, rfl, rfl⟩

theorem Sound.later (h : w.Sound) (later : Later w w') : w'.Sound := by
  induction later with
  | refl => exact h
  | tail _ step ih => exact step.sound ih

theorem Reachable.sound (h : Reachable w) : w.Sound := by
  obtain ⟨now, verbosity, later⟩ := h
  refine Sound.later ?_ later
  constructor <;> simp

end World
end TokenKeeper
