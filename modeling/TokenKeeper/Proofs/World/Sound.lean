import TokenKeeper.Proofs.World.Step
/-! What holds in every world: tasks refer to what is there, the tasks of an open scheduler are on
its pool, and a pool closes only when nothing holds it. -/
namespace TokenKeeper

def Pointwise (R : α → α → Prop) (before after : List α) : Prop :=
  ∀ i : Nat, Option.Rel R before[i]? after[i]?

/-- What stands in the first list goes on in the second, which may have more places. -/
def Grows (R : α → α → Prop) (before after : List α) : Prop :=
  ∀ (i : Nat) x, before[i]? = some x → ∃ y, after[i]? = some y ∧ R x y

theorem Grows.append {R : α → α → Prop} (h : ∀ x, R x x) (before new : List α) :
    Grows R before (before ++ new) := by
  intro i x hi
  obtain ⟨bound, -⟩ := List.getElem?_eq_some_iff.mp hi
  exact ⟨x, by rw [List.getElem?_append_left bound, hi], h x⟩

theorem getElem?_concat_cases {l : List α} {a x : α} {i : Nat} (h : (l ++ [a])[i]? = some x) :
    l[i]? = some x ∨ i = l.length ∧ x = a := by
  rw [List.getElem?_append] at h
  split at h
  · exact .inl h
  · rename_i beyond
    rw [List.getElem?_singleton] at h
    split at h
    · exact .inr ⟨by omega, (Option.some.inj h).symm⟩
    · cases h

theorem getElem?_modify_cases {l : List α} {i j : Nat} {f : α → α} {y : α}
    (h : (l.modify i f)[j]? = some y) : ∃ x, l[j]? = some x ∧ (if i = j then f x else x) = y :=
  Option.map_eq_some_iff.mp ((List.getElem?_modify ..).symm.trans h)

namespace Pointwise
variable {R : α → α → Prop} {before after : List α}

theorem refl (h : ∀ x, R x x) (l : List α) : Pointwise R l l := by
  intro i
  cases l[i]? with
  | none => exact .none
  | some x => exact .some (h x)

theorem modify (h : ∀ x, R x x) {i : Nat} {f : α → α}
    (hi : ∀ x, before[i]? = some x → R x (f x)) : Pointwise R before (before.modify i f) := by
  intro j
  rw [List.getElem?_modify]
  cases hj : before[j]? with
  | none => exact .none
  | some x =>
    refine .some ?_
    split
    · rename_i same
      exact hi x (same ▸ hj)
    · exact h x

theorem grows (h : Pointwise R before after) : Grows R before after := by
  intro i x hi
  have rel := h i
  rw [hi] at rel
  cases ha : after[i]? with
  | none => rw [ha] at rel; cases rel
  | some y => rw [ha] at rel; cases rel with | some hr => exact ⟨y, rfl, hr⟩

theorem of_get (h : Pointwise R before after) {i : Nat} {y : α} (hi : after[i]? = some y) :
    ∃ x, before[i]? = some x ∧ R x y := by
  have rel := h i
  rw [hi] at rel
  cases hb : before[i]? with
  | none => rw [hb] at rel; cases rel
  | some x => rw [hb] at rel; cases rel with | some hr => exact ⟨x, rfl, hr⟩

end Pointwise

/-- The scheduler later on: it keeps its job, and never comes back to a pool. -/
structure Scheduler.Follows (before after : Scheduler) : Prop where
  job : after.job = before.job
  pool : after.pool = before.pool ∨ after.pool = none

theorem Scheduler.Follows.refl (scheduler : Scheduler) : scheduler.Follows scheduler :=
  ⟨rfl, .inl rfl⟩

structure Cache.Follows (before after : Cache) : Prop where
  config : after.config = before.config
  issuer : after.issuer = before.issuer
  scheduler : after.scheduler = before.scheduler

namespace Cache.Follows

theorem refl (cache : Cache) : cache.Follows cache := ⟨rfl, rfl, rfl⟩

theorem trans {first second third : Cache} (h : first.Follows second) (h' : second.Follows third) :
    first.Follows third :=
  ⟨h'.config.trans h.config, h'.issuer.trans h.issuer, h'.scheduler.trans h.scheduler⟩

theorem conclude (cache : Cache) (config : Config) (reply : Reply) (now : Instant) :
    cache.Follows (cache.conclude config reply now) := by
  unfold Cache.conclude Cache.takeUp
  split <;> exact ⟨rfl, rfl, rfl⟩

end Cache.Follows

namespace World

/-- The task's scheduler, unless it is shut down, works on the pool. -/
def Home (w : World) (p : PoolId) (task : Task) : Prop :=
  ∀ (s : SchedulerId) scheduler q, task.scheduler? = some s → w.schedulers[s]? = some scheduler →
    scheduler.pool = some q → q = p

structure Sound (w : World) : Prop where
  workers : ∀ pool ∈ w.pools, pool.worker.Sound w.now
  owned : ∀ (p : PoolId) pool, w.pools[p]? = some pool → pool.worker.closing = true →
    w.isOwned p = false
  pools : ∀ (s : SchedulerId) scheduler p, w.schedulers[s]? = some scheduler →
    scheduler.pool = some p → p < w.pools.length
  tasks : ∀ (p : PoolId) pool, w.pools[p]? = some pool → ∀ task ∈ pool.worker.tasks,
    w.Fits task ∧ w.Home p task
  caches : ∀ (c : CacheId) cache, w.caches[c]? = some cache →
    ∃ scheduler, w.schedulers[cache.scheduler]? = some scheduler ∧ scheduler.job = .refresh c
  jobs : ∀ (s : SchedulerId) scheduler c, w.schedulers[s]? = some scheduler →
    scheduler.job = .refresh c → ∃ cache, w.caches[c]? = some cache ∧ cache.scheduler = s

theorem Sound.only_cache {w : World} (h : w.Sound) {c c' : CacheId} {cache cache' : Cache}
    (hc : w.caches[c]? = some cache) (hc' : w.caches[c']? = some cache')
    (same : cache'.scheduler = cache.scheduler) : c' = c := by
  obtain ⟨scheduler, hs, job⟩ := h.caches c cache hc
  obtain ⟨scheduler', hs', job'⟩ := h.caches c' cache' hc'
  rw [same, hs] at hs'
  rw [← Option.some.inj hs', job] at job'
  cases job'
  rfl

theorem isOwned_iff {w : World} {p : PoolId} : w.isOwned p = true ↔
    (∃ pool : Pool, w.pools[p]? = some pool ∧ pool.isKept = true) ∨
      ∃ (s : SchedulerId) (scheduler : Scheduler), w.schedulers[s]? = some scheduler ∧
        scheduler.pool = some p := by
  unfold isOwned Pool.isKept
  rw [Bool.or_eq_true, Option.any_eq_true, List.any_eq_true]
  simp only [List.mem_iff_getElem?, beq_iff_eq, Bool.or_eq_true]
  constructor
  · rintro (kept | ⟨scheduler, ⟨s, hs⟩, on⟩)
    · exact .inl kept
    · exact .inr ⟨s, scheduler, hs, on⟩
  · rintro (kept | ⟨s, scheduler, hs, on⟩)
    · exact .inl kept
    · exact .inr ⟨scheduler, ⟨s, hs⟩, on⟩

theorem isOwned_mono {w w' : World} {p : PoolId}
    (schedulers : Pointwise Scheduler.Follows w.schedulers w'.schedulers)
    (kept : ∀ pool', w'.pools[p]? = some pool' → pool'.isKept = true →
      ∃ pool, w.pools[p]? = some pool ∧ pool.isKept = true)
    (h : w.isOwned p = false) : w'.isOwned p = false := by
  rw [← Bool.not_eq_true, isOwned_iff] at h ⊢
  refine fun owned => h ?_
  obtain ⟨pool', hp, hk⟩ | ⟨s, scheduler', hs, on⟩ := owned
  · exact .inl (kept pool' hp hk)
  · obtain ⟨scheduler, hs', follows⟩ := schedulers.of_get hs
    obtain same | gone := follows.pool
    · exact .inr ⟨s, scheduler, hs', same ▸ on⟩
    · rw [gone] at on
      cases on

theorem Fits.scheduler {w : World} {task : Task} (h : w.Fits task) {s : SchedulerId}
    (hs : task.scheduler? = some s) : ∃ scheduler, w.schedulers[s]? = some scheduler := by
  cases task <;> cases hs
  · exact h
  · exact h
  · exact h
  · obtain ⟨scheduler, program, hs, -⟩ := h
    exact ⟨scheduler, hs⟩
  all_goals
    obtain ⟨scheduler, cache, hs, -⟩ := h
    exact ⟨scheduler, hs⟩

theorem Fits.keep {w w' : World} {task : Task} (h : w.Fits task)
    (schedulers : Grows Scheduler.Follows w.schedulers w'.schedulers)
    (caches : Grows Cache.Follows w.caches w'.caches) : w'.Fits task := by
  have there {s : SchedulerId} {scheduler : Scheduler} (hs : w.schedulers[s]? = some scheduler) :
      ∃ scheduler', w'.schedulers[s]? = some scheduler' ∧ scheduler'.job = scheduler.job := by
    obtain ⟨scheduler', hs', follows⟩ := schedulers _ _ hs
    exact ⟨scheduler', hs', follows.job⟩
  have loading (run : RunId) (c : CacheId) (h : w.Fits (.fetch run c)) :
      w'.Fits (.fetch run c) := by
    obtain ⟨scheduler, cache, hs, job, hc, same⟩ := h
    obtain ⟨scheduler', hs', job'⟩ := there hs
    obtain ⟨cache', hc', follows⟩ := caches _ _ hc
    exact ⟨scheduler', cache', hs', job'.trans job, hc', follows.scheduler.trans same⟩
  cases task with
  | begin | delayed | pending =>
    obtain ⟨scheduler, hs⟩ := h
    obtain ⟨scheduler', hs', -⟩ := there hs
    exact ⟨scheduler', hs'⟩
  | script =>
    obtain ⟨scheduler, program, hs, job⟩ := h
    obtain ⟨scheduler', hs', job'⟩ := there hs
    exact ⟨scheduler', program, hs', job'.trans job⟩
  | fetch run c => exact loading run c h
  | call run c => exact loading run c h
  | conclude run c => exact loading run c h
  | inquiry | guest => trivial

theorem Home.keep {w w' : World} {p : PoolId} {task : Task} (h : w.Home p task)
    (schedulers : Pointwise Scheduler.Follows w.schedulers w'.schedulers) : w'.Home p task := by
  intro s scheduler' q hs hs' on
  obtain ⟨scheduler, hs'', follows⟩ := schedulers.of_get hs'
  obtain same | gone := follows.pool
  · exact h s scheduler q hs hs'' (same ▸ on)
  · rw [gone] at on
    cases on

namespace Sound
variable {w w' : World}

theorem open_of_kept (h : w.Sound) {p : PoolId} {pool : Pool} (hp : w.pools[p]? = some pool)
    (kept : pool.isKept = true) : pool.worker.closing = false := by
  by_contra closing
  have free := h.owned p pool hp (by simpa using closing)
  rw [← Bool.not_eq_true, isOwned_iff] at free
  exact free (.inl ⟨pool, hp, kept⟩)

theorem of_pools (h : w.Sound)
    (schedulers : Pointwise Scheduler.Follows w.schedulers w'.schedulers)
    (caches : Pointwise Cache.Follows w.caches w'.caches)
    (more : w.pools.length ≤ w'.pools.length)
    (each : ∀ (p : PoolId) pool, w'.pools[p]? = some pool → pool.worker.Sound w'.now ∧
      (pool.worker.closing = true → w'.isOwned p = false) ∧
      ∀ task ∈ pool.worker.tasks, w'.Fits task ∧ w'.Home p task) : w'.Sound where
  workers := fun pool hp => by
    obtain ⟨p, hp⟩ := List.mem_iff_getElem?.mp hp
    exact (each p pool hp).1
  owned := fun p pool hp => (each p pool hp).2.1
  pools := fun s scheduler p hs on => by
    obtain ⟨scheduler', hs', follows⟩ := schedulers.of_get hs
    obtain same | gone := follows.pool
    · exact (h.pools s scheduler' p hs' (same ▸ on)).trans_le more
    · rw [gone] at on
      cases on
  tasks := fun p pool hp => (each p pool hp).2.2
  caches := fun c cache hc => by
    obtain ⟨cache', hc', follows⟩ := caches.of_get hc
    obtain ⟨scheduler, hs, job⟩ := h.caches c cache' hc'
    obtain ⟨scheduler', hs', follows'⟩ := schedulers.grows _ _ hs
    exact ⟨scheduler', follows.scheduler ▸ hs', follows'.job.trans job⟩
  jobs := fun s scheduler c hs job => by
    obtain ⟨scheduler', hs', follows⟩ := schedulers.of_get hs
    obtain ⟨cache, hc, same⟩ := h.jobs s scheduler' c hs' (follows.job ▸ job)
    obtain ⟨cache', hc', follows'⟩ := caches.grows _ _ hc
    exact ⟨cache', hc', follows'.scheduler.trans same⟩

theorem modify (h : w.Sound) {p : PoolId} {f : Pool → Pool}
    (now : w'.now = w.now) (pools : w'.pools = w.pools.modify p f)
    (schedulers : Pointwise Scheduler.Follows w.schedulers w'.schedulers)
    (caches : Pointwise Cache.Follows w.caches w'.caches)
    (each : ∀ pool, w.pools[p]? = some pool → (f pool).worker.Sound w.now ∧
      ((f pool).isKept = true → pool.isKept = true) ∧
      ((f pool).worker.closing = true → pool.worker.closing = true ∨ w'.isOwned p = false) ∧
      ∀ task ∈ (f pool).worker.tasks,
        task ∈ pool.worker.tasks ∨ w'.Fits task ∧ w'.Home p task) : w'.Sound := by
  have place (q : PoolId) : w'.pools[q]? = if p = q then w.pools[q]?.map f else w.pools[q]? := by
    rw [pools, List.getElem?_modify]
    split <;> simp
  have released (q : PoolId) : w.isOwned q = false → w'.isOwned q = false := by
    apply isOwned_mono schedulers
    intro pool' hq kept
    rw [place] at hq
    split at hq
    · rename_i same
      subst same
      obtain ⟨pool, hp, rfl⟩ := Option.map_eq_some_iff.mp hq
      exact ⟨pool, hp, (each pool hp).2.1 kept⟩
    · exact ⟨pool', hq, kept⟩
  have stay {q : PoolId} {pool : Pool} (hq : w.pools[q]? = some pool) {task : Task}
      (ht : task ∈ pool.worker.tasks) : w'.Fits task ∧ w'.Home q task :=
    have ⟨fits, home⟩ := h.tasks q pool hq task ht
    ⟨fits.keep schedulers.grows caches.grows, home.keep schedulers⟩
  refine h.of_pools schedulers caches (by rw [pools, List.length_modify]) fun q pool' hq => ?_
  rw [place] at hq
  rw [now]
  split at hq
  · rename_i same
    subst same
    obtain ⟨pool, hp, rfl⟩ := Option.map_eq_some_iff.mp hq
    obtain ⟨sound, -, closing, tasks⟩ := each pool hp
    refine ⟨sound, fun closed => ?_, fun task ht => ?_⟩
    · obtain before | free := closing closed
      · exact released p (h.owned p pool hp before)
      · exact free
    · obtain before | new := tasks task ht
      · exact stay hp before
      · exact new
  · exact ⟨h.workers pool' (List.mem_of_getElem? hq),
      fun closed => released q (h.owned q pool' hq closed), fun task ht => stay hq ht⟩

theorem keep (h : w.Sound) (now : w'.now = w.now) (pools : w'.pools = w.pools)
    (schedulers : Pointwise Scheduler.Follows w.schedulers w'.schedulers)
    (caches : Pointwise Cache.Follows w.caches w'.caches) : w'.Sound := by
  refine h.modify (p := 0) (f := id) now (by rw [pools, List.modify_id]) schedulers caches ?_
  intro pool hp
  exact ⟨h.workers pool (List.mem_of_getElem? hp), id, .inl, fun _ => .inl⟩

end Sound
end World
end TokenKeeper
