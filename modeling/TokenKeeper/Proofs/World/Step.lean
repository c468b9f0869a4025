import Mathlib.Logic.Relation
import TokenKeeper.Proofs.World.Turn
import TokenKeeper.World.Caches
/-! One thing after another. The operations from outside consist of small steps, between which
workers and readers may go on; what is proved about steps then holds in whatever order they come. -/
namespace TokenKeeper

def Pool.isKept (pool : Pool) : Bool := pool.registered || 0 < pool.handles

namespace World

/-- One thing that happens. -/
inductive Step : World → World → Prop where
  | move {w w'} (h : w.move? = some w') : Step w w'
  /-- Time passes when nothing can go on, up to the moment when something goes on by itself. -/
  | tick {w t} (quiet : w.move? = none) (later : w.now ≤ t)
      (next : ∀ time, w.nextTime? = some time → t ≤ time) : Step w { w with now := t }
  /-- A reader does not wait for workers before it asks. -/
  | arrive {w i reader time} (hi : w.readers[i]? = some reader)
      (coming : reader.stage = .coming time) (due : time ≤ w.now) : Step w (w.attend i)
  | expect {w c} (blocking : Bool) {times} (hc : c < w.caches.length)
      (later : ∀ time ∈ times, w.now ≤ time) : Step w (w.expect c blocking times)
  | note {w notice} (h : notice.isElapsed = false) : Step w (w.note notice)
  | setOutage {w} (outage : Option String) : Step w { w with outage := outage }
  | openPool {w} (identity : Identity) :
      Step w { w with pools := w.pools ++ [{ identity := identity, worker := .fresh w.now }] }
  | keepHandle {w p pool} (hp : w.pools[p]? = some pool) (kept : pool.isKept = true) :
      Step w (w.keepHandle p)
  | giveHandle {w} (p : PoolId) :
      Step w ((w.onPool p fun pool => { pool with handles := pool.handles - 1 }).release p)
  | unregister {w} (p : PoolId) :
      Step w ((w.onPool p fun pool => { pool with registered := false }).release p)
  | staff {w} (p : PoolId) (helpers : Pool → List Helper) (threadCount : Pool → Nat) :
      Step w (w.onPool p fun pool =>
        { pool with helpers := helpers pool, threadCount := threadCount pool })
  | inquire {w} (p : PoolId) : Step w (w.submit none p .inquiry)
  | occupy {w} (p : PoolId) (pause : Pause) : Step w (w.occupy p pause)
  | addScheduler {w p pool} (hp : w.pools[p]? = some pool) (kept : pool.isKept = true)
      (program : Nat → List Action) : Step w (w.addScheduler p (.script program)).2
  /-- The scheduler of a cache is its own: from outside it can be shut down only. -/
  | start {w s scheduler program} (hs : w.schedulers[s]? = some scheduler)
      (job : scheduler.job = .script program) : Step w (w.start none s)
  | schedule {w s scheduler program} (hs : w.schedulers[s]? = some scheduler)
      (job : scheduler.job = .script program) (delay : Span) : Step w (w.schedule none s delay)
  | shutdown {w} (s : SchedulerId) : Step w (w.shutdown none s).1
  | dropScheduler {w s scheduler program} (hs : w.schedulers[s]? = some scheduler)
      (job : scheduler.job = .script program) :
      Step w (w.onScheduler s fun scheduler => { scheduler with dropped := true })
  | openCache {w config issuer c w'} (h : w.openCache config issuer = (.ok c, w')) : Step w w'
  /-- A cache is gone only when it has been closed. -/
  | dropCache {w c cache scheduler} (hc : w.caches[c]? = some cache)
      (hs : w.schedulers[cache.scheduler]? = some scheduler) (off : scheduler.isShutDown = true) :
      Step w (w.onCache c fun cache => { cache with dropped := true })

abbrev Later : World → World → Prop := Relation.ReflTransGen Step

/-- What an empty world can become. -/
def Reachable (w : World) : Prop :=
  ∃ now verbosity, Later { now := now, verbosity := verbosity } w

theorem Reachable.later {w w' : World} (h : Reachable w) (later : Later w w') : Reachable w' := by
  obtain ⟨now, verbosity, before⟩ := h
  exact ⟨now, verbosity, before.trans later⟩

/-- Something goes on by itself, or else time passes until something does. -/
inductive Pass : World → World → Prop where
  | move {w w' : World} (h : w.move? = some w') : Pass w w'
  | tick {w : World} {t : Instant} (quiet : w.move? = none) (later : w.now ≤ t)
      (next : ∀ time, w.nextTime? = some time → t ≤ time) : Pass w { w with now := t }

abbrev Passes : World → World → Prop := Relation.ReflTransGen Pass

theorem Pass.step {w w' : World} (pass : Pass w w') : Step w w' := by
  cases pass with
  | move moved => exact .move moved
  | tick quiet later next => exact .tick quiet later next

theorem Passes.later {w w' : World} (passes : Passes w w') : Later w w' :=
  Relation.ReflTransGen.mono (fun _ _ pass => pass.step) _ _ passes

def moves : Nat → World → World
  | 0, w => w
  | n + 1, w => (w.move?.map (moves n)).getD w

theorem passes_moves (n : Nat) (w : World) : Passes w (moves n w) := by
  induction n generalizing w with
  | zero => exact .refl
  | succ n ih =>
    unfold moves
    cases moved : w.move? with
    | none => exact .refl
    | some next => exact .head (.move moved) (ih next)

theorem later_moves (n : Nat) (w : World) : Later w (moves n w) := (passes_moves n w).later

def quietTill (w : World) (t : Instant) : Bool :=
  w.move?.isNone && decide (w.now ≤ t) && w.nextTime?.all fun next => decide (t ≤ next)

theorem Pass.of_quietTill {w : World} {t : Instant} (quiet : w.quietTill t = true) :
    Pass w { w with now := t } := by
  simp only [quietTill, Bool.and_eq_true, Option.isNone_iff_eq_none, decide_eq_true_eq] at quiet
  obtain ⟨⟨quiet, later⟩, next⟩ := quiet
  exact .tick quiet later fun time first => by simpa [first] using next

/-- What can go on goes on, before this time and when it comes. -/
def onTo (w : World) (t : Instant) : World := moves 20 { moves 20 w with now := t }

theorem passes_onTo {w : World} {t : Instant} (quiet : (moves 20 w).quietTill t = true) :
    Passes w (w.onTo t) :=
  ((passes_moves 20 w).tail (.of_quietTill quiet)).trans (passes_moves 20 _)

theorem reachable_new : Reachable {} := ⟨Instant.start, none, .refl⟩

/-- A new world with one cache, whose issuer answers at once and whose callers have no time. -/
def solo : World := (({} : World).openCache { maxWait := 0 } (.fixed ⟨⟨"token"⟩, 30⟩)).2

theorem solo_opens :
    ({} : World).openCache { maxWait := 0 } (.fixed ⟨⟨"token"⟩, 30⟩) = (.ok 0, solo) := rfl

theorem reachable_solo : Reachable solo := reachable_new.later (.single (.openCache solo_opens))

/-- Its token has been refreshed once. -/
def refreshed : World := solo.onTo (Instant.start + Span.ofSecs 10)

theorem reachable_refreshed : Reachable refreshed :=
  reachable_solo.later (passes_onTo (by decide +kernel)).later

theorem solo_expects (blocking : Bool) :
    Step solo (solo.expect 0 blocking [Instant.start]) := by
  have there : 0 < solo.caches.length := by decide +kernel
  have now : solo.now = Instant.start := by decide +kernel
  exact .expect blocking there fun time member => now.trans_le (List.mem_singleton.mp member).ge

theorem move?_cases {w w' : World} (h : w.move? = some w') :
    (∃ p pool, w.pools[p]? = some pool ∧ pool.worker.isReady w.now = true ∧ w' = w.work p) ∨
      (∀ pool ∈ w.pools, pool.worker.isReady w.now = false) ∧
        ∃ i reader cache, w.readers[i]? = some reader ∧ w.caches[reader.cache]? = some cache ∧
          reader.isDue cache w.now = true ∧ w' = w.attend i := by
  unfold move? at h
  split at h
  · rename_i p found
    obtain ⟨bound, ready, -⟩ := List.findIdx?_eq_some_iff_getElem.mp found
    exact .inl ⟨p, w.pools[p], List.getElem?_eq_getElem bound, ready, (Option.some.inj h).symm⟩
  · rename_i none_ready
    obtain ⟨i, found, rfl⟩ := Option.map_eq_some_iff.mp h
    obtain ⟨bound, due, -⟩ := List.findIdx?_eq_some_iff_getElem.mp found
    obtain ⟨cache, hc, due⟩ := (Option.any_eq_true _ _).mp due
    exact .inr ⟨List.findIdx?_eq_none_iff.mp none_ready, i, w.readers[i], cache,
      List.getElem?_eq_getElem bound, hc, due, rfl⟩

theorem move?_none {w : World} (h : w.move? = none) :
    (∀ pool ∈ w.pools, pool.worker.isReady w.now = false) ∧
      ∀ reader ∈ w.readers, w.isDue reader = false := by
  unfold move? at h
  split at h
  · cases h
  · rename_i none_ready
    rw [Option.map_eq_none_iff, List.findIdx?_eq_none_iff] at h
    exact ⟨List.findIdx?_eq_none_iff.mp none_ready, h⟩

theorem min?_le {l : List Instant} {t : Instant} (ht : t ∈ l) :
    ∃ least, l.min? = some least ∧ least ≤ t := by
  obtain ⟨least, h⟩ := Option.isSome_iff_exists.mp (List.isSome_min?_of_mem ht)
  exact ⟨least, h, (List.min?_eq_some_iff.mp h).2 t ht⟩

theorem nextTime?_le_worker {w : World} {pool : Pool} (hp : pool ∈ w.pools) {t : Instant}
    (wakes : pool.worker.wakes = some t) : ∃ next, w.nextTime? = some next ∧ next ≤ t :=
  min?_le (List.mem_append_left _ (List.mem_filterMap.mpr ⟨pool, hp, wakes⟩))

theorem nextTime?_le_reader {w : World} {reader : Reader} (hr : reader ∈ w.readers) {t : Instant}
    (wakes : reader.wakes = some t) : ∃ next, w.nextTime? = some next ∧ next ≤ t :=
  min?_le (List.mem_append_right _ (List.mem_filterMap.mpr ⟨reader, hr, wakes⟩))

end World
end TokenKeeper
