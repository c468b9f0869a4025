import TokenKeeper.Proofs.Docket.Step
/-! Each step of a world is for each of its schedulers some steps of the scheduler's docket, perhaps
none. So what holds along all dockets holds of every scheduler in every world. -/
namespace TokenKeeper

namespace Worker.Stage
variable {s : SchedulerId} {stage : Stage Task} {task : Task} {t : Instant}

theorem of_tasks (s : SchedulerId) (stage : Stage Task) :
    (stage.of s).tasks = stage.tasks.filter (·.scheduler? = some s) := by
  cases stage with
  | busy task | held task =>
    unfold Stage.of Stage.tasks
    rw [Multiset.filter_singleton]
    dsimp only
    by_cases mine : task.scheduler? = some s
    · rw [if_pos mine, if_pos mine]
    · rw [if_neg mine, if_neg mine]
      rfl
  | _ => rfl

theorem of_held : stage.of s = .held task t ↔ stage = .held task t ∧ task.scheduler? = some s := by
  cases stage with
  | held other free =>
    simp only [Stage.of]
    split
    · rename_i mine
      simp only [Stage.held.injEq]
      exact ⟨fun same => ⟨same, same.1 ▸ mine⟩, And.left⟩
    · rename_i foreign
      simp only [reduceCtorEq, Stage.held.injEq, false_iff]
      exact fun ⟨same, mine⟩ => foreign (same.1 ▸ mine)
  | busy other => simp only [Stage.of]; split <;> simp
  | _ => simp [Stage.of]

theorem of_busy : stage.of s = .busy task ↔ stage = .busy task ∧ task.scheduler? = some s := by
  cases stage with
  | busy other =>
    simp only [Stage.of]
    split
    · rename_i mine
      simp only [Stage.busy.injEq]
      exact ⟨fun same => ⟨same, same ▸ mine⟩, And.left⟩
    · rename_i foreign
      simp only [reduceCtorEq, Stage.busy.injEq, false_iff]
      exact fun ⟨same, mine⟩ => foreign (same ▸ mine)
  | held other free => simp only [Stage.of]; split <;> simp
  | _ => simp [Stage.of]

end Worker.Stage

structure Pool.Spares (s : SchedulerId) (now : Instant) (before after : Pool) : Prop where
  tasks : Left before.worker.closing (after.worker.tasks.filter (·.scheduler? = some s))
    (before.worker.tasks.filter (·.scheduler? = some s))
  others : after.worker.others.filter (·.scheduler? = some s) ≤
    before.worker.others.filter (·.scheduler? = some s)
  free : ∀ task t, after.worker.stage.of s = .held task t → before.worker.stage.of s = .held task t
  lets : ∀ task t, before.worker.stage.of s = .held task t →
    after.worker.stage.of s = before.worker.stage.of s ∨
      after.worker.stage.of s = .busy task ∧ t ≤ now

namespace Pool.Spares
variable {s : SchedulerId} {now : Instant} {before after : Pool}

theorem of_stage (stage : after.worker.stage = before.worker.stage) (added : Multiset Task)
    (foreign : ∀ task ∈ added, task.scheduler? ≠ some s)
    (left : Left before.worker.closing after.worker.others (added + before.worker.others)) :
    before.Spares s now after := by
  have others := left.filter (·.scheduler? = some s)
  rw [Multiset.filter_add, Multiset.filter_eq_nil.mpr foreign, zero_add] at others
  refine ⟨?_, others.le, fun _ _ => by rw [stage]; exact id, fun _ _ _ => .inl (by rw [stage])⟩
  unfold Worker.tasks
  rw [stage, Multiset.filter_add, Multiset.filter_add]
  exact others.add_left _

theorem of_worker (worker : after.worker = before.worker) : before.Spares s now after :=
  of_stage (by rw [worker]) 0 nofun (.of_eq (by rw [worker, zero_add]))

end Pool.Spares

namespace World

def Announces (caches : List Cache) (s : SchedulerId) (call : Call) : Prop :=
  ∀ (c : CacheId) cache, caches[c]? = some cache → cache.scheduler = s →
    call = cache.issuer cache.attempts.length

/-- The docket is what the world shows of the scheduler, which has its runs on the pool. -/
structure Lists (w : World) (s : SchedulerId) (p : PoolId) (x : Docket) : Prop where
  scheduler : w.schedulers[s]? = some x.scheduler
  on : x.scheduler.pool = some p ∨ x.scheduler.pool = none
  now : x.now = w.now
  pool : ∃ pool, w.pools[p]? = some pool ∧ x.closing = pool.worker.closing ∧
    x.hand = pool.worker.stage.of s ∧
    x.others = pool.worker.others.filter (·.scheduler? = some s)
  home : ∀ (q : PoolId) pool, w.pools[q]? = some pool → ∀ task ∈ pool.worker.tasks,
    task.scheduler? = some s → q = p
  upcoming : Announces w.caches s x.upcoming

def HeldBy (w : World) (s : SchedulerId) (p : PoolId) (holder : Option Task) : Prop :=
  ∃ pool task t, w.pools[p]? = some pool ∧ pool.worker.stage = .held task t ∧
    holder = if task.scheduler? = some s then some task else none

/-- The world shows of the scheduler what the docket can become. -/
def Listed (held : Option Task → Prop) (w : World) (s : SchedulerId) (p : PoolId) (x : Docket) :
    Prop :=
  ∃ x', w.Lists s p x' ∧ Docket.Later held x x'

variable {w w' : World} {s : SchedulerId} {p : PoolId} {x : Docket} {held : Option Task → Prop}

theorem Listed.next (h : Listed held w s p x)
    (go : ∀ x', w.Lists s p x' → Listed held w' s p x') : Listed held w' s p x := by
  obtain ⟨x', lists, later⟩ := h
  obtain ⟨x'', lists', later'⟩ := go x' lists
  exact ⟨x'', lists', later.trans later'⟩

namespace Announces
variable {caches caches' : List Cache} {call : Call}

theorem keep (h : Announces caches s call)
    (old : ∀ (c : CacheId) cache', caches'[c]? = some cache' → cache'.scheduler = s →
      ∃ cache, caches[c]? = some cache ∧ cache.scheduler = s ∧ cache'.issuer = cache.issuer ∧
        cache'.attempts.length = cache.attempts.length) : Announces caches' s call := by
  intro c cache' hc mine
  obtain ⟨cache, hc', same, issuer, attempts⟩ := old c cache' hc mine
  rw [issuer, attempts]
  exact h c cache hc' same

theorem modify (h : Announces caches s call) (c : CacheId) {f : Cache → Cache}
    (each : ∀ cache : Cache, cache.Follows (f cache) ∧
      (f cache).attempts.length = cache.attempts.length) :
    Announces (caches.modify c f) s call := by
  refine h.keep fun c' cache' hc' mine => ?_
  obtain ⟨cache, hc, rfl⟩ := getElem?_modify_cases hc'
  split at mine
  · rename_i same
    have ⟨follows, attempts⟩ := each cache
    rw [if_pos same]
    exact ⟨cache, hc, follows.scheduler.symm.trans mine, follows.issuer, attempts⟩
  · rename_i other
    rw [if_neg other]
    exact ⟨cache, hc, mine, rfl, rfl⟩

end Announces

namespace Lists

theorem shut_of_free (lists : w.Lists s p x) (free : w.isOwned p = false) :
    x.scheduler.isShutDown = true := by
  obtain on | off := lists.on
  · rw [← Bool.not_eq_true, isOwned_iff] at free
    exact absurd (.inr ⟨s, x.scheduler, lists.scheduler, on⟩) free
  · exact Scheduler.isShutDown_iff.mpr off

theorem of_hand (lists : w.Lists s p x) {task : Task} (ht : task ∈ x.hand.tasks) :
    task.scheduler? = some s := by
  obtain ⟨pool, -, -, hand, -⟩ := lists.pool
  rw [hand, Worker.Stage.of_tasks] at ht
  exact (Multiset.mem_filter.mp ht).2

theorem spared (lists : w.Lists s p x) (now : w'.now = w.now)
    (hs : w'.schedulers[s]? = w.schedulers[s]?) (caches : Announces w'.caches s x.upcoming)
    (there : ∀ pool, w.pools[p]? = some pool → ∃ pool', w'.pools[p]? = some pool' ∧
      (pool'.worker.closing = pool.worker.closing ∨
        pool'.worker.closing = true ∧ w'.isOwned p = false))
    (each : ∀ (q : PoolId) pool', w'.pools[q]? = some pool' →
      (∃ pool, w.pools[q]? = some pool ∧ pool.Spares s w.now pool') ∨
        w.pools[q]? = none ∧ pool'.worker.tasks = 0) : Listed held w' s p x := by
  obtain ⟨pool, hp, closing, hand, others⟩ := lists.pool
  obtain ⟨pool', hp', closes⟩ := there pool hp
  have spares : pool.Spares s w.now pool' := by
    rcases each p pool' hp' with ⟨pool'', hp'', spares⟩ | ⟨nothing, -⟩
    · rwa [Option.some.inj (hp.symm.trans hp'')]
    · cases hp.symm.trans nothing
  have home : ∀ (q : PoolId) pool, w'.pools[q]? = some pool → ∀ task ∈ pool.worker.tasks,
      task.scheduler? = some s → q = p := by
    intro q pool' hq task ht mine
    rcases each q pool' hq with ⟨pool, hq', spares⟩ | ⟨-, nothing⟩
    · have old := spares.tasks.mem (Multiset.mem_filter.mpr ⟨ht, mine⟩)
      exact lists.home q pool hq' task (Multiset.mem_filter.mp old).1 mine
    · rw [nothing] at ht
      exact absurd ht (Multiset.notMem_zero task)
  let hand' := pool'.worker.stage.of s
  let others' := pool'.worker.others.filter (·.scheduler? = some s)
  have works : x.Works hand' others' := by
    have tasks := spares.tasks
    simp only [Worker.tasks, Multiset.filter_add, ← Worker.Stage.of_tasks] at tasks
    refine ⟨?_, ?_, ?_, ?_⟩
    · rw [closing, hand, others]
      exact tasks
    · rw [others]
      exact spares.others
    · rw [hand]
      exact spares.free
    · rw [hand, lists.now]
      exact spares.lets
  have scheduler := hs.trans lists.scheduler
  rcases closes with same | ⟨closes, free⟩
  · exact ⟨{ x with hand := hand', others := others' }, ⟨scheduler, lists.on,
      lists.now.trans now.symm, ⟨pool', hp', closing.trans same.symm, rfl, rfl⟩, home, caches⟩,
      .single (.work works)⟩
  · let last : Docket := { x with hand := hand', others := others', closing := true }
    have shown : w'.Lists s p last := ⟨scheduler, lists.on, lists.now.trans now.symm,
      ⟨pool', hp', closes.symm, rfl, rfl⟩, home, caches⟩
    exact ⟨last, shown, .tail (.single (.work works)) (.close (shown.shut_of_free free))⟩

theorem modify (lists : w.Lists s p x) (now : w'.now = w.now)
    (hs : w'.schedulers[s]? = w.schedulers[s]?) (caches : Announces w'.caches s x.upcoming)
    {q : PoolId} {f : Pool → Pool} (pools : w'.pools = w.pools.modify q f)
    (each : ∀ pool, w.pools[q]? = some pool → pool.Spares s w.now (f pool) ∧
      ((f pool).worker.closing = pool.worker.closing ∨
        (f pool).worker.closing = true ∧ w'.isOwned q = false)) : Listed held w' s p x := by
  have place (r : PoolId) : w'.pools[r]? = if q = r then w.pools[r]?.map f else w.pools[r]? := by
    rw [pools, List.getElem?_modify]
    split <;> simp
  refine lists.spared now hs caches (fun pool hp => ?_) fun r pool' hr => .inl ?_
  · rw [place]
    split
    · rename_i same
      subst same
      exact ⟨f pool, by rw [hp]; rfl, (each pool hp).2⟩
    · exact ⟨pool, hp, .inl rfl⟩
  · rw [place] at hr
    split at hr
    · rename_i same
      subst same
      obtain ⟨pool, hp, rfl⟩ := Option.map_eq_some_iff.mp hr
      exact ⟨pool, hp, (each pool hp).1⟩
    · exact ⟨pool', hr, .of_worker rfl⟩

theorem same (lists : w.Lists s p x) (now : w'.now = w.now)
    (hs : w'.schedulers[s]? = w.schedulers[s]?) (caches : Announces w'.caches s x.upcoming)
    (pools : w'.pools = w.pools) : Listed held w' s p x :=
  lists.modify (q := 0) (f := id) now hs caches (by rw [pools, List.modify_id])
    fun _ _ => ⟨.of_worker rfl, .inl rfl⟩

theorem note (lists : w.Lists s p x) (notice : Notice) : Listed held (w.note notice) s p x :=
  lists.same (w.note_now _) (by rw [note_schedulers]) (by rw [note_caches]; exact lists.upcoming)
    (w.note_pools _)

theorem attend (lists : w.Lists s p x) (i : Nat) : Listed held (w.attend i) s p x :=
  lists.same (w.attend_now _) (by rw [attend_schedulers])
    (by rw [attend_caches]; exact lists.upcoming) (w.attend_pools _)

theorem onScheduler (lists : w.Lists s p x) {s' : SchedulerId} (other : s' ≠ s)
    (f : Scheduler → Scheduler) : Listed held (w.onScheduler s' f) s p x :=
  lists.same rfl (List.getElem?_modify_ne _ _ other) lists.upcoming rfl

theorem onWorker (lists : w.Lists s p x) (q : PoolId) {f : Worker Task → Worker Task}
    (added : Multiset Task) (foreign : ∀ task ∈ added, task.scheduler? ≠ some s)
    (each : ∀ worker, (f worker).stage = worker.stage ∧ (f worker).closing = worker.closing ∧
      Left worker.closing (f worker).others (added + worker.others)) :
    Listed held (w.onWorker q f) s p x :=
  lists.modify rfl rfl lists.upcoming rfl fun pool _ =>
    have ⟨stage, closing, left⟩ := each pool.worker
    ⟨.of_stage stage added foreign left, .inl closing⟩

theorem kept (lists : w.Lists s p x) (q : PoolId) {f : Pool → Pool}
    (worker : ∀ pool, (f pool).worker = pool.worker) : Listed held (w.onPool q f) s p x :=
  lists.modify rfl rfl lists.upcoming rfl fun pool _ =>
    ⟨.of_worker (worker pool), .inl (by rw [worker])⟩

theorem release (lists : w.Lists s p x) (q : PoolId) : Listed held (w.release q) s p x := by
  obtain h | ⟨pool, -, free, closed⟩ := w.release_eq q
  · rw [h]
    exact ⟨x, lists, .refl⟩
  · rw [closed]
    refine (lists.note (.poolClosing pool.threads)).next fun x' lists' => ?_
    refine lists'.modify rfl rfl lists'.upcoming rfl fun pool _ => ⟨?_, .inr ⟨rfl, ?_⟩⟩
    · exact .of_stage rfl 0 nofun (.of_eq (zero_add _).symm)
    · rw [← free]
      refine isOwned_congr (note_schedulers _ _) ?_
      simp only [World.onWorker, onPool, List.getElem?_modify_eq, note_pools]
      cases w.pools[q]? <;> rfl

theorem submit (lists : w.Lists s p x) (q : PoolId) {task : Task}
    (foreign : task.scheduler? ≠ some s) : Listed held (w.submit none q task) s p x := by
  refine lists.onWorker q {task} (fun next hn => Multiset.mem_singleton.mp hn ▸ foreign)
    fun worker => ?_
  simp only [reduceCtorEq, if_false]
  have others := worker.submitAll_others [task]
  obtain ⟨inbox, eq⟩ := worker.submitAll_eq [task]
  rw [Multiset.coe_singleton] at others
  unfold Worker.submit
  rw [eq] at others ⊢
  exact ⟨rfl, rfl, others⟩

theorem rouse (lists : w.Lists s p x) (q : PoolId) (which : Task → Bool) :
    Listed held (w.onWorker q fun worker => worker.rouse false which) s p x := by
  refine lists.onWorker q 0 nofun fun worker => ?_
  have others := worker.rouse_others false which
  rw [zero_add]
  exact ⟨rfl, rfl, others⟩

end Lists
end World
end TokenKeeper
