import TokenKeeper.Proofs.Sharing.Peaceful
import TokenKeeper.Proofs.Worker.Distance
/-! A world with one cache only. Between two ticks of its clock it takes finitely many steps: each
of them begins a call, brings the run at hand forward, serves a reader, or brings the worker nearer
to the run. -/
namespace TokenKeeper

def Pause.weight : Pause → Nat
  | rest _ => 2
  | till _ | hold _ => 1

def Reader.left (reader : Reader) : Nat :=
  match reader.stage with
  | .coming _ => 2
  | .waiting .. => 1
  | .served .. => 0

/-- How much of a run is to come, counted from the call before. -/
def Task.weight : Task → Nat
  | fetch .. => 1
  | begin _ => 2
  | pending .. => 3
  | delayed .. => 4
  | conclude .. => 5
  | call _ _ pauses _ => 6 + (pauses.map Pause.weight).sum
  | script .. | inquiry | guest _ => 1

theorem sum_set_lt {l : List Nat} {i a b : Nat} (hi : l[i]? = some a) (lt : b < a) :
    (l.set i b).sum < l.sum := by
  induction l generalizing i with
  | nil => cases hi
  | cons first rest ih =>
    cases i with
    | zero =>
      cases hi
      simpa using lt
    | succ i => simpa using ih hi

namespace Chain
variable {x : Chain} {task : Task} {added : Multiset Task} {scheduler : Scheduler} {cache : Cache}

theorem Turn.advances (turn : x.Turn task added scheduler cache) :
    x.cache.attempts.length < cache.attempts.length ∨
      cache.attempts.length = x.cache.attempts.length ∧
        ((added.map Task.weight).sum < task.weight ∨
          added = {task} ∧ ∃ due, task.due? = some due) := by
  cases turn with
  | call => exact .inl (Nat.lt_succ_self _)
  | enter begins | enterDropped begins =>
    refine .inr ⟨rfl, .inl ?_⟩
    cases begins with
    | atOnce => simp [Task.weight]
    | waited waits =>
      unfold Task.awaits? at waits
      split at waits <;> cases waits <;> simp [Task.weight]
  | abandon waits =>
    refine .inr ⟨rfl, .inl ?_⟩
    unfold Task.awaits? at waits
    split at waits <;> cases waits <;> simp [Task.weight]
  | wait waits =>
    refine .inr ⟨rfl, ?_⟩
    unfold Task.awaits? at waits
    split at waits <;> cases waits
    · exact .inl (by simp [Task.weight])
    · exact .inr ⟨rfl, _, rfl⟩
  | @pause _ _ pause _ _ _ hd =>
    refine .inr ⟨rfl, ?_⟩
    cases pause with
    | rest => exact .inl (by simp [Task.weight, Pause.weight])
    | till =>
      cases hd
      exact .inr ⟨rfl, _, rfl⟩
    | hold => cases hd
  | @resume _ _ pause =>
    refine .inr ⟨rfl, .inl ?_⟩
    cases pause <;> simp [Task.weight, Pause.weight]
  | endCall => exact .inr ⟨x.cache.onLatest_length _, .inl (by simp [Task.weight])⟩
  | conclude | concludeLast =>
    exact .inr ⟨x.cache.conclude_length _ _ _, .inl (by simp [Task.weight])⟩

end Chain

namespace World
variable {w w' : World} {p : PoolId} {pool pool' : Pool} {y : Chain}

theorem carryOn_waiting {task : Task} {due : Instant} (gentle : task.IsGentle)
    (fits : w.Fits task) (waits : task.due? = some due) :
    (∃ submission, w.carryOn p task = w.abandon p submission) ∨
      ∃ next, w.carryOn p task = w.waitTill p due task next ∧
        (due ≤ w.now → ∃ added, task ∉ added ∧
          Turned w (next (w.onWorker p Worker.spend)) p added) := by
  have spent : Amidst w (w.onWorker p Worker.spend) p 0 :=
    .onWorker w p fun pool _ => .spend pool.worker
  unfold Task.due? at waits
  split at waits <;> cases waits
  · rename_i submission
    unfold carryOn
    dsimp only
    unfold awaitDelay
    split
    · exact .inl ⟨submission, rfl⟩
    · rename_i on
      refine .inr ⟨_, rfl, fun lapsed => ?_⟩
      have begins :
          (Task.pending submission due).Begins w.now (w.isCalledOff submission) submission :=
        .waited rfl (Bool.eq_false_iff.mpr on) lapsed
      obtain ⟨added, gone, turned, -⟩ := enter_does begins fits spent rfl rfl rfl
      exact ⟨added, gone, turned⟩
  · exact gentle.elim
  · rename_i run c rest reply
    refine .inr ⟨(·.goOn p (.call run c rest reply)), rfl, fun _ => ⟨_, ?_, spent.goOn _⟩⟩
    simp
  · exact gentle.elim

theorem waitTill_distance (hp : w.pools[p]? = some pool) {task : Task} {due : Instant}
    {next : World → World} (looked : pool.worker.looked ≤ w.now)
    (running : pool.worker.closing = false) (stage : pool.worker.stage = .busy task)
    (others : pool.worker.others = 0)
    (goes : due ≤ w.now → ∃ added, task ∉ added ∧
      Turned w (next (w.onWorker p Worker.spend)) p added)
    (hp' : (w.waitTill p due task next).pools[p]? = some pool')
    (stays : pool'.worker.tasks = {task}) :
    pool'.worker.distance w.now < pool.worker.distance w.now := by
  have changed {f : Worker Task → Worker Task} {stage' : Worker.Stage Task}
      (hp' : ((w.onWorker p f).setStage p stage').pools[p]? = some pool') :
      pool'.worker = { f pool.worker with stage := stage' } := by
    unfold World.setStage World.onWorker onPool at hp'
    dsimp only at hp'
    rw [List.modify_modify_eq, List.getElem?_modify_eq, hp] at hp'
    cases hp'
    rfl
  unfold waitTill at hp'
  rw [hp] at hp'
  dsimp only at hp'
  split at hp'
  · rename_i spent
    rw [yield_onWorker fun _ _ => rfl] at hp'
    rw [changed hp']
    exact Worker.stepAside_distance stage spent
  · rename_i credit
    split at hp'
    · rename_i lapsed
      obtain ⟨added, gone, turned⟩ := goes (lapsed.trans looked)
      obtain ⟨f, pools, carries⟩ := turned.pools
      rw [pools, List.getElem?_modify_eq, hp] at hp'
      cases hp'
      have left := (carries pool hp).1.tasks.eq running
      rw [stays, others, add_zero] at left
      simp [← left] at gone
    · rename_i ahead
      rw [yield_onWorker fun _ _ => rfl] at hp'
      rw [changed hp']
      exact Worker.rest_distance stage credit (Nat.not_le.mp ahead) others

/-- Calls so far, how much is to come of the runs and readers there are, and how far the workers
are from them. -/
def callCount (w : World) : Nat := (w.caches.map (·.attempts.length)).sum

def weight (w : World) : Nat := (w.tasks.map Task.weight).sum

def unserved (w : World) : Nat := (w.readers.map Reader.left).sum

def distance (w : World) : Nat := (w.pools.map (·.worker.distance w.now)).sum

structure Lone (w : World) : Prop where
  peaceful : w.Peaceful
  pools : w.pools.length = 1
  schedulers : w.schedulers.length = 1
  caches : w.caches.length = 1

namespace Lone

theorem scheduler_eq (h : w.Lone) {s : SchedulerId} {scheduler : Scheduler}
    (hs : w.schedulers[s]? = some scheduler) : s = 0 := by
  have bound := (List.getElem?_eq_some_iff.mp hs).1
  rw [h.schedulers] at bound
  exact Nat.lt_one_iff.mp bound

theorem sole_pool (h : w.Lone) : ∃ pool, w.pools = [pool] := List.length_eq_one_iff.mp h.pools

theorem live (h : w.Lone) (shows : w.Shows 0 y) : y.live = w.tasks := by
  rw [shows.live, World.live, Multiset.filter_eq_self]
  intro task member
  obtain ⟨p, pool, hp, member⟩ := mem_tasks.mp member
  have gentle := (h.peaceful.pools pool (List.mem_of_getElem? hp)).2.2 task member
  obtain ⟨fits, -⟩ := h.peaceful.reachable.sound.tasks p pool hp task member
  obtain ⟨s, mine⟩ : ∃ s, task.scheduler? = some s := by
    cases task with
    | script | inquiry | guest => exact gentle.elim
    | _ => exact ⟨_, rfl⟩
  obtain ⟨scheduler, hs⟩ := fits.scheduler mine
  rw [mine, h.scheduler_eq hs, h.scheduler_eq shows.scheduler]

theorem callCount (h : w.Lone) {cache : Cache} (hc : w.caches[0]? = some cache) :
    w.callCount = cache.attempts.length := by
  obtain ⟨only, caches⟩ := List.length_eq_one_iff.mp h.caches
  rw [caches] at hc
  cases hc
  simp [World.callCount, caches]

theorem sums (h : w.Lone) (hp : w.pools[p]? = some pool) : p = 0 ∧ w.tasks = pool.worker.tasks ∧
    w.distance = pool.worker.distance w.now := by
  obtain ⟨only, pools⟩ := h.sole_pool
  rw [pools, List.getElem?_singleton] at hp
  split at hp
  · rename_i first
    cases hp
    exact ⟨first, by simp [World.tasks, pools], by simp [World.distance, pools]⟩
  · cases hp

theorem sole_task (h : w.Lone) (shows : w.Shows 0 y) (hp : w.pools[p]? = some pool) :
    pool.worker.tasks.card ≤ 1 := by
  obtain ⟨start, sound⟩ := shows.sound h.peaceful.reachable
  rw [← (h.sums hp).2.1, ← h.live shows]
  exact sound.sole

theorem keep (h : w.Lone) (peaceful : w'.Peaceful) (size : SameSize w w') : w'.Lone :=
  ⟨peaceful, size.pools.trans h.pools, size.schedulers.trans h.schedulers,
    size.caches.trans h.caches⟩

theorem pass (h : w.Lone) (pass : Pass w w') : w'.Lone :=
  h.keep (h.peaceful.pass pass) (h.peaceful.sameSize_pass pass)

theorem passes (h : w.Lone) (passes : Passes w w') : w'.Lone := by
  induction passes with
  | refl => exact h
  | tail _ step ih => exact ih.pass step

theorem work (h : w.Lone) (shows : w.Shows 0 y) (hp : w.pools[p]? = some pool)
    (ready : pool.worker.isReady w.now = true) (lone : (w.work p).Lone) :
    w.callCount < (w.work p).callCount ∨ (w.work p).callCount = w.callCount ∧
      ((w.work p).weight < w.weight ∨
        (w.work p).weight = w.weight ∧ (w.work p).distance < w.distance) := by
  have sound := h.peaceful.reachable.sound
  have member := List.mem_of_getElem? hp
  obtain ⟨-, unheld, gentle⟩ := h.peaceful.pools pool member
  have running := h.peaceful.running hp
  have sole := h.sole_task shows hp
  obtain ⟨rfl, tasks, distance⟩ := h.sums hp
  -- Either a step of the one run counts, or the worker itself comes nearer to it.
  by_cases busy : ∃ task, pool.worker.stage = .busy task
  · obtain ⟨task, stage⟩ := busy
    have same : w.work 0 = w.carryOn 0 task := by simp [World.work, hp, stage]
    have mine : task ∈ pool.worker.tasks := by simp [Worker.tasks_busy stage]
    have others : pool.worker.others = 0 := by
      rw [Worker.tasks_busy stage, Multiset.card_add, Multiset.card_singleton] at sole
      exact Multiset.card_eq_zero.mp (by omega)
    obtain ⟨fits, home⟩ := sound.tasks 0 pool hp task mine
    obtain ⟨added, turned, deed⟩ := carryOn_does hp (sound.workers pool member).looked fits home
    rw [← same] at turned deed
    obtain ⟨f, pools, carries⟩ := turned.pools
    have hp' : (w.work 0).pools[0]? = some (f pool) := by
      rw [pools, List.getElem?_modify_eq, hp]
      rfl
    obtain ⟨-, tasks', distance'⟩ := lone.sums hp'
    have left : (f pool).worker.tasks = added := by
      rw [(carries pool hp).1.tasks.eq running, others, add_zero]
    have own : task.scheduler? = some y.cache.scheduler := by
      rw [← tasks, ← h.live shows, shows.live, mem_live] at mine
      obtain ⟨_, _, _, _, own⟩ := mine
      exact own
    obtain ⟨scheduler, cache, -, hc, turn⟩ := deed.turn sound shows fits own
    have was : w.weight = task.weight := by
      rw [World.weight, tasks, Worker.tasks_busy stage, others, add_zero, Multiset.map_singleton,
        Multiset.sum_singleton]
    have is : (w.work 0).weight = (added.map Task.weight).sum := by
      rw [World.weight, tasks', left]
    rw [h.callCount shows.cache, lone.callCount hc, was, is]
    rcases turn.advances with more | ⟨calls, less | ⟨stays, due, waits⟩⟩
    · exact .inl more
    · exact .inr ⟨calls, .inl less⟩
    · refine .inr ⟨calls, .inr ⟨by simp [stays], ?_⟩⟩
      rw [distance, distance', turned.apart.now]
      rw [stays] at left
      rw [same] at hp'
      rcases carryOn_waiting (w := w) (p := 0) (gentle task mine) fits waits with
        ⟨submission, gone⟩ | ⟨next, waits, goes⟩
      · rw [gone] at hp'
        unfold abandon World.yield World.setStage World.onWorker onPool at hp'
        dsimp only at hp'
        rw [note_pools, List.getElem?_modify_eq, onScheduler, hp] at hp'
        rw [← Option.some.inj hp'] at left
        change 0 + pool.worker.others = {task} at left
        simp [others] at left
      · rw [waits] at hp'
        have looked := (sound.workers pool member).looked
        exact waitTill_distance hp looked running stage others goes hp' left
  · have own : w.work 0 = w.onWorker 0 fun worker => worker.advance w.now := by
      unfold World.work
      simp only [hp]
      split
      · rename_i task stage
        exact absurd ⟨task, stage⟩ busy
      · rfl
    have settles := sound.workers pool member
    have kept := (Worker.advance_sound settles).1.tasks.eq running
    have nearer : (pool.worker.advance w.now).distance w.now < pool.worker.distance w.now := by
      apply Worker.distance_advance settles.settled running _ unheld _ _ ready
      · by_contra leaving
        rw [settles.leaving (by simpa using leaving)] at running
        cases running
      · intro task stage
        exact busy ⟨task, stage⟩
      · exact (Multiset.card_le_card (Multiset.le_add_left _ _)).trans sole
    have hp' : (w.work 0).pools[0]? =
        some { pool with worker := pool.worker.advance w.now } := by
      rw [own]
      simp [World.onWorker, onPool, hp]
    obtain ⟨-, tasks', distance'⟩ := lone.sums hp'
    rw [World.weight, World.weight, tasks, tasks', distance, distance', kept, own]
    exact .inr ⟨rfl, .inr ⟨rfl, nearer⟩⟩

end Lone

theorem attend_unserved {i : Nat} {reader : Reader} {cache : Cache}
    (hi : w.readers[i]? = some reader) (hc : w.caches[reader.cache]? = some cache)
    (due : reader.isDue cache w.now = true) : (w.attend i).unserved < w.unserved := by
  have less : (reader.next cache w.now).left < reader.left := by
    unfold Reader.next Reader.left
    unfold Reader.isDue at due
    cases stage : reader.stage with
    | coming time =>
      cases cache.current with
      | some issued => simp
      | none =>
        dsimp only
        split_ifs <;> simp
    | waiting asked deadline => simp
    | served =>
      rw [stage] at due
      cases due
  unfold unserved
  rw [attend_readers hi hc, List.map_set]
  apply sum_set_lt _ less
  rw [List.getElem?_map, hi, Option.map_some]

theorem Lone.move (h : w.Lone) (moved : w.move? = some w') : w'.now = w.now ∧
    (w.callCount < w'.callCount ∨ w'.callCount = w.callCount ∧
      (w'.weight < w.weight ∨ w'.weight = w.weight ∧
        (w'.unserved < w.unserved ∨ w'.unserved = w.unserved ∧ w'.distance < w.distance))) := by
  have sound := h.peaceful.reachable.sound
  have lone := h.pass (.move moved)
  obtain ⟨p, pool, hp, ready, rfl⟩ | ⟨-, i, reader, cache, hi, hc, due, rfl⟩ := move?_cases moved
  · obtain ⟨cache, caches⟩ := List.length_eq_one_iff.mp h.caches
    have here : w.caches[0]? = some cache := by simp [caches]
    obtain ⟨y, shows, -⟩ := sound.shows here
    refine ⟨(sound.work_apart hp).now, ?_⟩
    rcases h.work shows hp ready lone with more | ⟨calls, less | ⟨runs, nearer⟩⟩
    · exact .inl more
    · exact .inr ⟨calls, .inl less⟩
    · refine .inr ⟨calls, .inr ⟨runs, .inr ⟨?_, nearer⟩⟩⟩
      unfold unserved
      rw [(sound.work_apart hp).readers]
  · refine ⟨attend_now _ _, .inr ⟨?_, .inr ⟨?_, .inl (attend_unserved hi hc due)⟩⟩⟩
    · unfold World.callCount
      rw [attend_caches]
    · unfold World.weight World.tasks
      rw [attend_pools]

/-- A world with one cache gets to any time there is, if there are only so many calls by then. -/
theorem Lone.settles {w : World} (h : w.Lone) {limit : Instant} (ahead : w.now ≤ limit) {n : Nat}
    (bound : ∀ w', Passes w w' → w'.now ≤ limit → w'.callCount ≤ n) :
    ∃ fuel w', awaitFrom (fun _ => false) (some limit) fuel w = some w' ∧ w'.now = limit := by
  -- Whatever goes on, time passes or one of the sums that the recursion ends by gets less.
  cases moved : w.move? with
  | some next =>
    have pass : Pass w next := .move moved
    obtain ⟨now, order⟩ := h.move moved
    have few := bound next (.single pass) (now.trans_le ahead)
    obtain ⟨fuel, w', waited, there⟩ := (h.pass pass).settles (now.trans_le ahead)
      fun w' passes => bound w' (.head pass passes)
    refine ⟨fuel + 1, w', ?_, there⟩
    rw [awaitFrom, moved]
    exact waited
  | none =>
    by_cases there : limit ≤ w.now
    · refine ⟨1, w, ?_, le_antisymm ahead there⟩
      rw [awaitFrom, moved]
      simp [there]
    · have more : w.now < limit := Nat.not_le.mp there
      obtain ⟨t, first⟩ : ∃ t, (w.nextTime?.toList ++ (some limit).toList).min? = some t :=
        Option.isSome_iff_exists.mp (List.isSome_min?_of_mem (a := limit) (by simp))
      obtain ⟨pass, later, le⟩ := wait_next h.peaceful.reachable moved
        (fun _ bound => Option.some.inj bound ▸ more) first
      have ahead' : { w with now := t }.now ≤ limit := le limit rfl
      obtain ⟨fuel, w', waited, there'⟩ := (h.pass pass).settles ahead'
        fun w' passes => bound w' (.head pass passes)
      refine ⟨fuel + 1, w', ?_, there'⟩
      rw [awaitFrom, moved]
      simp only [there, Option.any_some, decide_false, Bool.or_self, Bool.false_eq_true, if_false]
      rw [first]
      exact waited
termination_by (limit - w.now, n - w.callCount, w.weight, w.unserved, w.distance)
decreasing_by
  · apply Prod.Lex.left
    unfold Instant at *
    omega
  · rw [now]
    apply Prod.Lex.right
    rcases order with calls | ⟨calls, runs | ⟨runs, readers | ⟨readers, nearer⟩⟩⟩
    · apply Prod.Lex.left
      omega
    · rw [calls]
      exact .right _ (.left _ _ runs)
    · rw [calls, runs]
      exact .right _ (.right _ (.left _ _ readers))
    · rw [calls, runs, readers]
      exact .right _ (.right _ (.right _ nearer))

end World
end TokenKeeper
