import TokenKeeper.Proofs.World.Preserved
/-! What happens is of four kinds: time passes, a worker goes on, a reader goes on, or something is
done from outside. What is done from outside leaves the calls and tokens of the caches alone, and no
runs come in for a cache that is there already. -/
namespace TokenKeeper

theorem Grows.trans {R : α → α → Prop} (h : ∀ x y z, R x y → R y z → R x z)
    {first second third : List α} (before : Grows R first second) (after : Grows R second third) :
    Grows R first third := by
  intro i x hi
  obtain ⟨y, hy, first⟩ := before i x hi
  obtain ⟨z, hz, second⟩ := after i y hy
  exact ⟨z, hz, h x y z first second⟩

theorem Grows.refl {R : α → α → Prop} (h : ∀ x, R x x) (l : List α) : Grows R l l :=
  (Pointwise.refl h l).grows

structure Cache.Keeps (before after : Cache) : Prop extends Cache.Follows before after where
  attempts : after.attempts = before.attempts
  current : after.current = before.current
  ready : after.ready = before.ready

theorem Cache.Keeps.refl (cache : Cache) : cache.Keeps cache := ⟨.refl cache, rfl, rfl, rfl⟩

theorem Cache.Keeps.trans {first second third : Cache} (h : first.Keeps second)
    (h' : second.Keeps third) : first.Keeps third :=
  ⟨h.toFollows.trans h'.toFollows, h'.attempts.trans h.attempts, h'.current.trans h.current,
    h'.ready.trans h.ready⟩

namespace World

def Foreign (w : World) (task : Task) : Prop :=
  ∀ (c : CacheId) cache, w.caches[c]? = some cache → task.scheduler? ≠ some cache.scheduler

def Expects (w : World) (reader : Reader) : Prop :=
  (∃ cache, w.caches[reader.cache]? = some cache) ∧
    ∃ time, reader.stage = .coming time ∧ w.now ≤ time

/-- What is done from outside. -/
structure Beside (w w' : World) : Prop where
  now : w'.now = w.now
  verbosity : w'.verbosity = w.verbosity
  elapsed : w'.elapsed = w.elapsed
  readers : ∃ new, w'.readers = w.readers ++ new ∧ ∀ reader ∈ new, w'.Expects reader
  caches : Grows Cache.Keeps w.caches w'.caches
  tasks : ∀ (p : PoolId) pool', w'.pools[p]? = some pool' → ∀ task ∈ pool'.worker.tasks,
    w.Foreign task ∨ ∃ pool, w.pools[p]? = some pool ∧
      pool'.worker.stage = pool.worker.stage ∧ task ∈ pool.worker.tasks

namespace Beside
variable {w w' : World}

theorem trans {first second third : World} (h : Beside first second) (h' : Beside second third) :
    Beside first third where
  now := h'.now.trans h.now
  verbosity := h'.verbosity.trans h.verbosity
  elapsed := h'.elapsed.trans h.elapsed
  readers := by
    obtain ⟨new, readers, expects⟩ := h.readers
    obtain ⟨new', readers', expects'⟩ := h'.readers
    refine ⟨new ++ new', by rw [readers', readers, List.append_assoc], fun reader hr => ?_⟩
    cases List.mem_append.mp hr with
    | inl old =>
      obtain ⟨⟨cache, hc⟩, time, stage, later⟩ := expects reader old
      obtain ⟨cache', hc', -⟩ := h'.caches _ cache hc
      exact ⟨⟨cache', hc'⟩, time, stage, h'.now ▸ later⟩
    | inr young => exact expects' reader young
  caches := Grows.trans (R := Cache.Keeps) (fun _ _ _ h h' => h.trans h') h.caches h'.caches
  tasks := by
    intro p pool'' hp'' task ht''
    cases h'.tasks p pool'' hp'' task ht'' with
    | inl foreign =>
      left
      intro c cache hc
      obtain ⟨cache', hc', keeps⟩ := h.caches c cache hc
      exact keeps.scheduler ▸ foreign c cache' hc'
    | inr known =>
      obtain ⟨pool', hp', stage', ht'⟩ := known
      refine (h.tasks p pool' hp' task ht').imp_right fun ⟨pool, hp, stage, ht⟩ => ?_
      exact ⟨pool, hp, stage'.trans stage, ht⟩

theorem still (now : w'.now = w.now) (verbosity : w'.verbosity = w.verbosity)
    (elapsed : w'.elapsed = w.elapsed) (pools : w'.pools = w.pools)
    (readers : w'.readers = w.readers) (caches : Grows Cache.Keeps w.caches w'.caches) :
    Beside w w' where
  now := now
  verbosity := verbosity
  elapsed := elapsed
  readers := ⟨[], by rw [readers, List.append_nil], nofun⟩
  caches := caches
  tasks := fun _ pool hp _ ht => .inr ⟨pool, pools ▸ hp, rfl, ht⟩

theorem refl (w : World) : Beside w w := still rfl rfl rfl rfl rfl (.refl .refl _)

theorem note (w : World) {notice : Notice} (h : notice.isElapsed = false) :
    Beside w (w.note notice) :=
  still (w.note_now _) (w.note_verbosity _) (w.note_elapsed h) (w.note_pools _) (w.note_readers _)
    (by rw [note_caches]; exact .refl .refl _)

theorem onScheduler (w : World) (s : SchedulerId) (f : Scheduler → Scheduler) :
    Beside w (w.onScheduler s f) := still rfl rfl rfl rfl rfl (.refl .refl _)

theorem onPool (w : World) (p : PoolId) {f : Pool → Pool}
    (stage : ∀ pool, (f pool).worker.stage = pool.worker.stage)
    (tasks : ∀ pool, ∀ task ∈ (f pool).worker.tasks, w.Foreign task ∨ task ∈ pool.worker.tasks) :
    Beside w (w.onPool p f) where
  now := rfl
  verbosity := rfl
  elapsed := rfl
  readers := ⟨[], (List.append_nil _).symm, nofun⟩
  caches := .refl .refl _
  tasks := by
    intro q pool' hq task ht
    obtain ⟨pool, hp, rfl⟩ := getElem?_modify_cases hq
    split at ht
    · rename_i same
      rw [if_pos same]
      exact (tasks pool task ht).imp_right fun old => ⟨pool, hp, stage pool, old⟩
    · rename_i other
      rw [if_neg other]
      exact .inr ⟨pool, hp, rfl, ht⟩

theorem kept (w : World) (p : PoolId) {f : Pool → Pool}
    (worker : ∀ pool, (f pool).worker = pool.worker) : Beside w (w.onPool p f) :=
  onPool w p (fun pool => by rw [worker]) fun pool task ht => .inr (worker pool ▸ ht)

theorem release (w : World) (p : PoolId) : Beside w (w.release p) := by
  rcases w.release_eq p with same | ⟨pool, -, -, closed⟩
  · rw [same]
    exact refl w
  · rw [closed]
    exact (note w rfl).trans (onPool _ p (fun _ => rfl) fun _ _ => .inr)

theorem submit (p : PoolId) {task : Task} (foreign : w.Foreign task) :
    Beside w (w.submit none p task) := by
  unfold World.submit
  simp only [reduceCtorEq, if_false]
  refine onPool w p (fun pool => ?_) fun pool next hn => ?_
  · obtain ⟨inbox, eq⟩ := pool.worker.submitAll_eq [task]
    simp only [Worker.submit, eq]
    rfl
  · refine (Multiset.mem_add.mp ((pool.worker.submit_tasks task).mem hn)).imp_left fun new => ?_
    exact Multiset.mem_singleton.mp new ▸ foreign

theorem asked {s : SchedulerId} (asks : Asks w w' s)
    (own : ∀ (c : CacheId) cache, w.caches[c]? = some cache → s ≠ cache.scheduler) :
    Beside w w' := by
  rcases asks with same | ⟨scheduler, q, task, f, -, -, -, mine, -, notice, kind, rfl⟩
  · rcases same with rfl | ⟨notice, kind, rfl⟩
    · exact refl _
    · exact note w kind
  · have foreign : w.Foreign task := by
      intro c cache hc same
      exact own c cache hc (Option.some.inj (mine.symm.trans same))
    exact ((submit q foreign).trans (onScheduler _ s f)).trans (note _ kind)

theorem shutdown (w : World) (s : SchedulerId) : Beside w (w.shutdown none s).1 := by
  rcases w.shutdown_cases none s with same | ⟨_, q, -, -, notice, kind, shut⟩
  · rw [same]
    exact refl w
  · rw [shut]
    have rouse : Beside (w.onScheduler s (·.letGo)) (w.callOff none s q) := by
      refine onPool _ q (fun _ => rfl) fun pool task ht => .inr ?_
      exact (pool.worker.rouse_tasks (Task.isPendingOf s)).mem ht
    exact (((onScheduler w s _).trans rouse).trans (note _ kind)).trans (release _ q)

theorem openPool (w : World) (identity : Identity) :
    Beside w { w with pools := w.pools ++ [{ identity := identity, worker := .fresh w.now }] } where
  now := rfl
  verbosity := rfl
  elapsed := rfl
  readers := ⟨[], (List.append_nil _).symm, nofun⟩
  caches := .refl .refl _
  tasks := by
    intro p pool' hp task ht
    rcases getElem?_concat_cases hp with old | ⟨-, rfl⟩
    · exact .inr ⟨pool', old, rfl, ht⟩
    · rw [Worker.fresh_tasks] at ht
      exact (Multiset.notMem_zero task ht).elim

theorem expect (w : World) {c : CacheId} (blocking : Bool) {times : List Instant}
    (hc : c < w.caches.length) (later : ∀ time ∈ times, w.now ≤ time) :
    Beside w (w.expect c blocking times) where
  now := rfl
  verbosity := rfl
  elapsed := rfl
  readers := by
    refine ⟨_, rfl, fun reader hr => ?_⟩
    obtain ⟨time, ht, rfl⟩ := List.mem_map.mp hr
    exact ⟨⟨w.caches[c], List.getElem?_eq_getElem hc⟩, time, rfl, later time ht⟩
  caches := .refl .refl _
  tasks := fun _ pool hp _ ht => .inr ⟨pool, hp, rfl, ht⟩

theorem openCache (h : w.Sound) {config : Config} {issuer : Issuer} {c : CacheId}
    (opens : w.openCache config issuer = (.ok c, w')) : Beside w w' := by
  obtain ⟨p, opened, had, -, rfl⟩ := openCache_ok opens
  have found : Beside w opened := by
    rcases poolFor_ok had with ⟨rfl | ⟨notice, kind, rfl⟩, -⟩
    · exact refl _
    · exact (openPool w config.pool).trans (note _ kind)
  have sound := h.poolFor had
  have added : Beside opened (opened.withCache p config issuer) :=
    still rfl rfl rfl rfl rfl (.append .refl _ _)
  -- The new scheduler is nobody else's, and its first run is the new cache's only.
  have started : Beside opened
      ((opened.withCache p config issuer).start none opened.schedulers.length) := by
    rcases start_asks (opened.withCache p config issuer) opened.schedulers.length with
      same | ⟨scheduler, q, task, f, -, -, -, mine, -, notice, kind, same⟩
    · rcases same with same | ⟨notice, kind, same⟩ <;> rw [same]
      · exact added
      · exact added.trans (note _ kind)
    · have foreign : opened.Foreign task := by
        intro c cache hc same
        obtain ⟨scheduler, hs, -⟩ := sound.caches c cache hc
        rw [← Option.some.inj (mine.symm.trans same), List.getElem?_eq_none le_rfl] at hs
        cases hs
      rw [same]
      have submitted : Beside opened ((opened.withCache p config issuer).submit none q task) :=
        (submit q foreign).trans (still rfl rfl rfl rfl rfl (.append .refl _ _))
      exact (submitted.trans (onScheduler _ _ f)).trans (note _ kind)
  exact found.trans started

theorem dropCache (w : World) (c : CacheId) :
    Beside w (w.onCache c fun cache => { cache with dropped := true }) := by
  refine still rfl rfl rfl rfl rfl (Pointwise.grows (.modify .refl fun _ _ => ?_))
  exact ⟨⟨rfl, rfl, rfl⟩, rfl, rfl, rfl⟩

end Beside

/-- What happens in one step. -/
inductive Happens (w : World) : World → Prop where
  | time {t} (quiet : w.move? = none) (later : w.now ≤ t)
      (next : ∀ time, w.nextTime? = some time → t ≤ time) : Happens w { w with now := t }
  | work {p pool} (hp : w.pools[p]? = some pool) (ready : pool.worker.isReady w.now = true) :
      Happens w (w.work p)
  /-- Who has come already goes on only when no worker has anything to do. -/
  | attend {i reader cache} (hi : w.readers[i]? = some reader)
      (hc : w.caches[reader.cache]? = some cache) (due : reader.isDue cache w.now = true)
      (still : (∃ time, reader.stage = .coming time) ∨
        ∀ pool ∈ w.pools, pool.worker.isReady w.now = false) : Happens w (w.attend i)
  | beside {w'} (h : Beside w w') : Happens w w'

theorem Happens.now {w w' : World} (happens : Happens w w') (h : w.Sound) :
    w'.now = w.now ∨ ∃ t, w' = { w with now := t } ∧ w.move? = none ∧ w.now ≤ t ∧
      ∀ time, w.nextTime? = some time → t ≤ time := by
  cases happens with
  | @time t quiet later next => exact .inr ⟨t, rfl, quiet, later, next⟩
  | work hp => exact .inl (h.work_apart hp).now
  | attend => exact .inl (attend_now _ _)
  | beside beside => exact .inl beside.now

theorem Sound.script_own {w : World} (h : w.Sound) {s : SchedulerId} {scheduler : Scheduler}
    {program : Nat → List Action} (hs : w.schedulers[s]? = some scheduler)
    (job : scheduler.job = .script program) :
    ∀ (c : CacheId) cache, w.caches[c]? = some cache → s ≠ cache.scheduler := by
  rintro c cache hc rfl
  obtain ⟨scheduler', hs', job'⟩ := h.caches c cache hc
  rw [Option.some.inj (hs.symm.trans hs'), job'] at job
  cases job

theorem Step.happens {w w' : World} (h : w.Sound) (step : Step w w') : Happens w w' := by
  cases step with
  | move moved =>
    rcases move?_cases moved with
      ⟨p, pool, hp, ready, rfl⟩ | ⟨still, i, reader, cache, hi, hc, due, rfl⟩
    · exact .work hp ready
    · exact .attend hi hc due (.inr still)
  | tick quiet later next => exact .time quiet later next
  | @arrive i reader time hi coming due =>
    cases hc : w.caches[reader.cache]? with
    | some cache =>
      refine .attend hi hc ?_ (.inl ⟨time, coming⟩)
      simpa [Reader.isDue, coming] using due
    | none =>
      have nothing : w.attend i = w := by simp only [World.attend, hi, hc]
      rw [nothing]
      exact .beside (.refl w)
  | expect blocking hc later => exact .beside (.expect w blocking hc later)
  | note kind => exact .beside (.note w kind)
  | setOutage => exact .beside (.still rfl rfl rfl rfl rfl (.refl .refl _))
  | openPool identity => exact .beside (.openPool w identity)
  | keepHandle | staff => exact .beside (.kept w _ fun _ => rfl)
  | giveHandle p | unregister p =>
    refine .beside (Beside.trans (Beside.kept w p ?_) (.release _ p))
    exact fun _ => rfl
  | inquire p | occupy p => exact .beside (.submit p (by simp [Foreign, Task.scheduler?]))
  | addScheduler => exact .beside (.still rfl rfl rfl rfl rfl (.refl .refl _))
  | start hs job => exact .beside (.asked (start_asks w _) (h.script_own hs job))
  | schedule hs job => exact .beside (.asked (schedule_asks w _ _) (h.script_own hs job))
  | shutdown s => exact .beside (.shutdown w s)
  | dropScheduler => exact .beside (.onScheduler w _ _)
  | openCache opens => exact .beside (.openCache h opens)
  | dropCache => exact .beside (.dropCache w _)

theorem Later.now_le {w w' : World} (h : w.Sound)
    (later : Later w w') : w.now ≤ w'.now := by
  induction later with
  | refl => exact le_rfl
  | tail before step ih =>
    apply ih.trans
    obtain same | ⟨t, rfl, -, le, -⟩ := (step.happens (h.later before)).now (h.later before)
    · exact same.ge
    · exact le

end World
end TokenKeeper
