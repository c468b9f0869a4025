import TokenKeeper.Proofs.World.Registry
/-! Who is in the registry. Nothing changes that but opening a pool and letting go of one: workers,
readers, schedulers and caches do not. -/
namespace TokenKeeper.World
variable {w w' : World}

def roster (w : World) : List (Identity × Bool) :=
  w.pools.map fun pool => (pool.identity, pool.registered)

theorem roster_pools (pools : w'.pools = w.pools) : w'.roster = w.roster := by
  rw [roster, roster, pools]

@[simp] theorem roster_note (w : World) (notice : Notice) : (w.note notice).roster = w.roster :=
  roster_pools (w.note_pools notice)

theorem roster_onPool (w : World) (p : PoolId) {f : Pool → Pool}
    (each : ∀ pool, w.pools[p]? = some pool →
      (f pool).identity = pool.identity ∧ (f pool).registered = pool.registered) :
    (w.onPool p f).roster = w.roster := by
  refine List.ext_getElem? fun q => ?_
  simp only [roster, onPool, List.getElem?_map, List.getElem?_modify]
  cases hq : w.pools[q]? with
  | none => rfl
  | some pool =>
    obtain rfl | other := eq_or_ne p q
    · obtain ⟨identity, registered⟩ := each pool hq
      simp [identity, registered]
    · simp [other]

theorem roster_onWorker (w : World) (p : PoolId) (f : Worker Task → Worker Task) :
    (w.onWorker p f).roster = w.roster := roster_onPool w p fun _ _ => ⟨rfl, rfl⟩

theorem roster_release (w : World) (p : PoolId) : (w.release p).roster = w.roster := by
  obtain h | ⟨_, -, -, closed⟩ := w.release_eq p
  · rw [h]
  · rw [closed, roster_onWorker, roster_note]

theorem roster_submit (w : World) (p : PoolId) (task : Task) :
    (w.submit none p task).roster = w.roster := roster_onWorker w p _

theorem roster_asked {s : SchedulerId} (asks : Asks w w' s) : w'.roster = w.roster := by
  obtain h | ⟨_, q, task, f, -, -, -, -, -, notice, -, rfl⟩ := asks
  · obtain rfl | ⟨notice, -, rfl⟩ := h
    · rfl
    · exact roster_note w notice
  · rw [roster_note]
    exact roster_submit w q task

theorem roster_shutdown (w : World) (s : SchedulerId) :
    (w.shutdown none s).1.roster = w.roster := by
  rcases w.shutdown_cases none s with same | ⟨_, q, -, -, notice, -, shut⟩
  · rw [same]
  · rw [shut, roster_release, roster_note]
    exact roster_onWorker (w.onScheduler s (·.letGo)) q _

theorem roster_work (h : w.Sound) {p : PoolId} {pool : Pool} (hp : w.pools[p]? = some pool) :
    (w.work p).roster = w.roster := by
  rcases h.work_cases hp with ⟨task, -, -, added, turned, -⟩ | own
  · obtain ⟨f, pools, carries⟩ := turned.pools
    rw [roster_pools (w := w.onPool p f) pools]
    refine roster_onPool w p fun pool hp => ?_
    obtain ⟨carries, -⟩ := carries pool hp
    exact ⟨carries.identity, carries.registered⟩
  · rw [own]
    exact roster_onPool w p fun _ _ => ⟨rfl, rfl⟩

theorem findIdx?_roster (w : World) (threads : String) :
    (w.pools.findIdx? fun pool => pool.registered && pool.threads == threads) =
      w.roster.findIdx? fun entry => entry.2 && entry.1.threads == threads := by
  rw [roster, List.findIdx?_map]
  rfl

structure Unasked (w w' : World) : Prop where
  step : Step w w'
  /-- No pool is opened, -/
  opens : ∀ identity,
    w' ≠ { w with pools := w.pools ++ [{ identity := identity, worker := .fresh w.now }] }
  /-- no cache neither, -/
  caches : ∀ config issuer c, w.openCache config issuer ≠ (.ok c, w')
  /-- and the registry lets go of nothing. -/
  keeps : ∀ p pool, w.pools[p]? = some pool → pool.registered = true →
    w' ≠ (w.onPool p fun pool => { pool with registered := false }).release p

theorem Unasked.roster (h : w.Sound) (unasked : Unasked w w') : w'.roster = w.roster := by
  obtain ⟨step, opens, caches, keeps⟩ := unasked
  cases step with
  | move moved =>
    obtain ⟨p, pool, hp, -, rfl⟩ | ⟨-, i, -, -, -, -, -, rfl⟩ := move?_cases moved
    · exact roster_work h hp
    · exact roster_pools (w.attend_pools i)
  | tick | expect | setOutage | addScheduler | dropScheduler | dropCache => rfl
  | arrive => exact roster_pools (w.attend_pools _)
  | note => exact roster_note w _
  | openPool identity => exact absurd rfl (opens identity)
  | keepHandle | staff => exact roster_onPool w _ fun _ _ => ⟨rfl, rfl⟩
  | giveHandle p =>
    rw [roster_release]
    exact roster_onPool w p fun _ _ => ⟨rfl, rfl⟩
  | unregister p =>
    rw [roster_release]
    -- it was not registered before
    refine roster_onPool w p fun pool hp => ⟨rfl, ?_⟩
    by_contra registered
    exact keeps p pool hp (by simpa using registered) rfl
  | inquire p | occupy p => exact roster_submit w p _
  | start => exact roster_asked (start_asks w _)
  | schedule => exact roster_asked (schedule_asks w _ _)
  | shutdown s => exact roster_shutdown w s
  | openCache opened => exact absurd opened (caches _ _ _)

end TokenKeeper.World
