import TokenKeeper.Proofs.Sharing.Effects
import TokenKeeper.Proofs.Sharing.Lone
import TokenKeeper.Proofs.World.Registry
/-! Opening a cache in a peaceful world. The others do not notice, and what can be opened beside
them can be opened in an empty world as well. -/
namespace TokenKeeper

def Identity.IsNamable (identity : Identity) : Prop :=
  identity.name ≠ "" ∧ identity.name.toList.contains '\x00' = false

theorem Identity.contains_threads (identity : Identity) :
    identity.threads.toList.contains '\x00' = identity.name.toList.contains '\x00' := by
  unfold threads
  cases identity.background <;> simp [String.toList_append]

namespace World
variable {w w' : World} {c : CacheId} {x : Chain} {config : Config} {issuer : Issuer}

def Named (w : World) : Prop := ∀ pool ∈ w.pools, pool.identity.IsNamable

theorem Named.later (named : w.Named) (h : w.Sound) (later : Later w w')
    (size : w'.pools.length = w.pools.length) : w'.Named := by
  intro pool member
  obtain ⟨p, hp⟩ := List.mem_iff_getElem?.mp member
  have bound := (List.getElem?_eq_some_iff.mp hp).1
  have there := List.getElem?_eq_getElem (size ▸ bound)
  obtain ⟨pool', hp', follows⟩ := h.poolsFollow later p _ there
  obtain rfl := Option.some.inj (hp.symm.trans hp')
  rw [follows.identity]
  exact named _ (List.mem_of_getElem? there)

theorem Named.poolFor (named : w.Named) {identity : Identity} {p : PoolId}
    (had : w.poolFor identity = (.ok p, w')) : identity.IsNamable ∧ w'.Named := by
  unfold World.poolFor at had
  dsimp only at had
  split at had
  · cases had
  · rename_i name
    split at had
    · rename_i found
      cases had
      refine ⟨⟨name, ?_⟩, named⟩
      obtain ⟨bound, here, -⟩ := List.findIdx?_eq_some_iff_getElem.mp found
      rw [Bool.and_eq_true, beq_iff_eq] at here
      rw [← identity.contains_threads, ← here.2]
      exact (Identity.contains_threads _).trans (named _ (List.getElem_mem bound)).2
    · split at had
      · cases had
      · split at had
        · cases had
        · rename_i printable
          cases had
          have namable : identity.IsNamable := ⟨name, by simpa using printable⟩
          refine ⟨namable, fun pool member => ?_⟩
          rw [note_pools] at member
          obtain old | new := List.mem_append.mp member
          · exact named pool old
          · rw [List.mem_singleton.mp new]
            exact namable

/-- A new cache on the pool has a scheduler of its own, which has submitted the first run. -/
structure OpensOn (w w' : World) (p : PoolId) (config : Config) (issuer : Issuer) : Prop where
  pool : ∃ opened pool, w.poolFor config.pool = (.ok p, opened) ∧ opened.pools[p]? = some pool ∧
    pool.worker.closing = false ∧
      w'.pools = (opened.submit none p (.begin ⟨w.schedulers.length, 0⟩)).pools
  now : w'.now = w.now
  schedulers : w'.schedulers = w.schedulers ++
    [{ job := .refresh w.caches.length, pool := some p, started := true, accepted := 1 }]
  caches : w'.caches = w.caches ++
    [{ config := config, issuer := issuer, scheduler := w.schedulers.length }]
  readers : w'.readers = w.readers

theorem Sound.opensOn (h : w.Sound) (opens : w.openCache config issuer = (.ok c, w')) :
    c = w.caches.length ∧ ∃ p, OpensOn w w' p config issuer := by
  obtain ⟨p, opened, had, rfl, rfl⟩ := openCache_ok opens
  obtain ⟨-, pool, hp, kept⟩ := poolFor_ok had
  obtain ⟨now, schedulers, caches⟩ := poolFor_rest had
  have readers : opened.readers = w.readers := by
    obtain ⟨rfl | ⟨notice, -, rfl⟩, -⟩ := poolFor_ok had
    · rfl
    · exact note_readers _ _
  obtain ⟨notice, -, started⟩ := start_open (w := opened.withCache p config issuer) none
    (s := opened.schedulers.length) List.getElem?_concat_length rfl rfl
  rw [started]
  refine ⟨congrArg List.length caches, p, ⟨opened, pool, had, hp, ?_, ?_⟩, ?_, ?_, ?_, ?_⟩
  · exact (h.poolFor had).open_of_kept hp kept
  · rw [note_pools, ← schedulers]
    rfl
  · rw [note_now]
    exact now
  · rw [note_schedulers, ← schedulers, ← caches]
    change List.modify (_ ++ _) _ _ = _
    rw [List.modify_eq_take_cons_drop (by simp)]
    simp [Scheduler.accept]
  · rw [note_caches, ← schedulers, ← caches]
    rfl
  · rw [note_readers]
    exact readers

theorem live_poolFor {identity : Identity} {p : PoolId}
    (had : w.poolFor identity = (.ok p, w')) (s : SchedulerId) : w'.live s = w.live s := by
  obtain ⟨rfl | ⟨notice, -, rfl⟩, -⟩ := poolFor_ok had
  · rfl
  · rw [live_congr (note_pools _ _)]
    unfold World.live World.tasks
    rw [← Multiset.coe_add, Multiset.add_bind, Multiset.coe_singleton, Multiset.singleton_bind,
      Worker.fresh_tasks, add_zero]

theorem live_submit {p : PoolId} {pool : Pool} (hp : w.pools[p]? = some pool)
    (running : pool.worker.closing = false) {task : Task} {s : SchedulerId}
    (foreign : task.scheduler? ≠ some s) : (w.submit none p task).live s = w.live s := by
  obtain ⟨beyond, was, is⟩ := tasks_modify hp (w.submit_pools p task)
  unfold World.live
  rw [was, is, (pool.worker.submit_tasks task).eq running, add_assoc, Multiset.filter_add,
    Multiset.filter_singleton, if_neg foreign]
  exact zero_add _

theorem OpensOn.shows {p : PoolId} (opens : OpensOn w w' p config issuer) {c' : CacheId}
    (shows : w.Shows c' x) : w'.Shows c' x := by
  obtain ⟨opened, pool, had, hp, running, pools⟩ := opens.pool
  have there : x.cache.scheduler < w.schedulers.length :=
    (List.getElem?_eq_some_iff.mp shows.scheduler).1
  apply shows.stays opens.now
  · rw [opens.schedulers, List.getElem?_append_left there]
  · rw [opens.caches, List.getElem?_append_left (List.getElem?_eq_some_iff.mp shows.cache).1]
  · have foreign : (Task.begin ⟨w.schedulers.length, 0⟩).scheduler? ≠ some x.cache.scheduler :=
      fun same => there.ne' (Option.some.inj same)
    rw [live_congr pools, live_submit hp running foreign, live_poolFor had]

theorem Peaceful.poolFor (h : w.Peaceful) {identity : Identity} {p : PoolId}
    (had : w.poolFor identity = (.ok p, w')) : w'.Peaceful := by
  have reachable := h.reachable.later (poolFor_later had)
  obtain ⟨-, schedulers, caches⟩ := poolFor_rest had
  apply h.of_pools reachable (schedulers ▸ .refl .refl _) (caches ▸ .refl .refl _)
  obtain ⟨rfl | ⟨notice, -, rfl⟩, -⟩ := poolFor_ok had
  · exact h.pools
  · intro pool member
    rw [note_pools] at member
    obtain old | new := List.mem_append.mp member
    · exact h.pools pool old
    · rw [List.mem_singleton.mp new]
      refine ⟨rfl, nofun, fun task none_there => ?_⟩
      rw [Worker.fresh_tasks] at none_there
      exact absurd none_there (Multiset.notMem_zero task)

theorem Peaceful.openCache (h : w.Peaceful) (gentle : ∀ k, (issuer k).IsGentle)
    (opens : w.openCache config issuer = (.ok c, w')) : Becomes w w' fun _ x => x := by
  have later : Later w w' := .single (.openCache opens)
  obtain ⟨-, p, on⟩ := h.reachable.sound.opensOn opens
  refine ⟨later, ⟨h.reachable.later later, ?_, ?_, ?_⟩, on.now, fun c' x shows => on.shows shows⟩
  · obtain ⟨opened, -, had, -, -, pools⟩ := on.pool
    intro pool member
    rw [pools, submit_pools] at member
    obtain ⟨q, hq⟩ := List.mem_iff_getElem?.mp member
    obtain ⟨before, hb, rfl⟩ := getElem?_modify_cases hq
    obtain ⟨registered, unheld, mild⟩ := (h.poolFor had).pools before (List.mem_of_getElem? hb)
    split
    · obtain ⟨inbox, eq⟩ := before.worker.submitAll_eq [.begin ⟨w.schedulers.length, 0⟩]
      refine ⟨registered, ?_, fun task there => ?_⟩
      · simp only [Worker.submit, eq]
        exact unheld
      · obtain new | old := Multiset.mem_add.mp ((before.worker.submit_tasks _).mem there)
        · rw [Multiset.mem_singleton.mp new]
          trivial
        · exact mild task old
    · exact ⟨registered, unheld, mild⟩
  · intro scheduler member
    rw [on.schedulers] at member
    obtain old | new := List.mem_append.mp member
    · exact h.jobs scheduler old
    · rw [List.mem_singleton.mp new]
      exact ⟨_, rfl⟩
  · intro cache member
    rw [on.caches] at member
    obtain old | new := List.mem_append.mp member
    · exact h.issuers cache old
    · rw [List.mem_singleton.mp new]
      exact gentle

theorem openCache_empty (now : Instant) (verbosity : Verbosity) (named : config.pool.IsNamable)
    (gentle : ∀ k, (issuer k).IsGentle) : ∃ w' : World,
      ({ now := now, verbosity := verbosity } : World).openCache config issuer = (.ok 0, w') ∧
        w'.Lone ∧ w'.readers = [] := by
  obtain ⟨opened, had⟩ : ∃ opened, ({ now := now, verbosity := verbosity } : World).poolFor
      config.pool = (.ok 0, opened) := by
    unfold World.poolFor
    rw [if_neg named.1]
    simp only [List.findIdx?_nil, named.2]
    exact ⟨_, rfl⟩
  obtain ⟨w', opens⟩ : ∃ w', ({ now := now, verbosity := verbosity } : World).openCache config
      issuer = (.ok 0, w') := by
    unfold World.openCache
    rw [had]
    dsimp only
    rw [(poolFor_rest had).2.2]
    exact ⟨_, rfl⟩
  have blank := Peaceful.new now verbosity
  obtain ⟨-, p, on⟩ := blank.reachable.sound.opensOn opens
  refine ⟨w', opens, ⟨(blank.openCache gentle opens).peaceful, ?_, ?_, ?_⟩, on.readers⟩
  · obtain ⟨opened', -, had', -, -, pools⟩ := on.pool
    obtain rfl : opened' = opened := by
      rw [had] at had'
      cases had'
      rfl
    rw [pools, submit_pools, List.length_modify]
    obtain ⟨none_new | ⟨notice, -, rfl⟩, pool, hp, -⟩ := poolFor_ok had
    · rw [none_new] at hp
      cases hp
    · rw [note_pools]
      rfl
  · rw [on.schedulers]
    rfl
  · rw [on.caches]
    rfl

end World
end TokenKeeper
