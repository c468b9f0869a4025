import TokenKeeper.Proofs.Operations
import TokenKeeper.Proofs.Secrecy.Work
import TokenKeeper.Proofs.Teardown.Elsewhere
import TokenKeeper.Proofs.Trace.Timings
/-! What a notice of a length of time stands for: a submission that waits for just this delay, a run
that has taken up a reply and asked for the next load, or a reader that has waited for as long as
its cache lets it. -/
namespace TokenKeeper.World

/-- The scheduler accepts one more submission, which goes to its pool `q` to wait for this delay. -/
def Defers (w w' : World) (s : SchedulerId) (q : PoolId) (delay : Span) : Prop :=
  ∃ scheduler scheduler' pool', w.schedulers[s]? = some scheduler ∧ scheduler.pool = some q ∧
    w'.schedulers[s]? = some scheduler' ∧ scheduler'.accepted = scheduler.accepted + 1 ∧
    w'.pools[q]? = some pool' ∧ .delayed ⟨s, scheduler.accepted⟩ delay ∈ pool'.worker.others

/-- A run of the cache takes up the reply, and hands its scheduler, unless that is shut down, the
delay of the next load. -/
def TakesUpReply (w w' : World) (c : CacheId) (cache : Cache) (reply : Reply) : Prop :=
  w.caches[c]? = some cache ∧
    (∃ pool ∈ w.pools, ∃ run, pool.worker.stage = .busy (.conclude run c reply)) ∧
    w'.caches[c]? = some (cache.conclude cache.config reply w.now) ∧
    ∀ scheduler q, w.schedulers[cache.scheduler]? = some scheduler → scheduler.pool = some q →
      Defers w w' cache.scheduler q (cache.config.delayAfter reply)

def GivesUp (w w' : World) (cache : Cache) : Prop :=
  ∃ (i : Nat) (reader : Reader) (asked : Instant), w.readers[i]? = some reader ∧
    w.caches[reader.cache]? = some cache ∧ reader.isServed = false ∧ reader.sees cache = false ∧
    w'.readers[i]? =
      some { reader with stage := .served asked w.now (cache.current.map (·.token)) }

/-- What a notice of a length of time says of the step that gives it. -/
def Bears (w w' : World) : Notice → Prop
  | .scheduled threads delay => ∃ s q, Defers w w' s q delay ∧ threads = w.threads q
  | .nextLoad delay =>
    ∃ c cache reply, TakesUpReply w w' c cache reply ∧ delay = cache.config.delayAfter reply
  | .loadFailed error delay =>
    ∃ c cache reply, TakesUpReply w w' c cache reply ∧ reply.token = .error error ∧
      delay = cache.config.delayAfter reply
  | .waitElapsed maxWait => ∃ cache, GivesUp w w' cache ∧ maxWait = cache.config.maxWait
  | _ => True

/-- What a step tells of lengths of time, all of it at once and of this kind. -/
def Tells (w w' : World) (kind : Notice → Prop) : Prop :=
  ∃ new, w'.timings = new ++ w.timings ∧ ∀ entry ∈ new, entry.1 = w.now ∧ kind entry.2

namespace Tells
variable {w w' w'' : World} {kind kind' : Notice → Prop}

theorem silent (same : w'.timings = w.timings) : Tells w w' kind := ⟨[], same, nofun⟩

theorem note {notice : Notice} (h : kind notice) : Tells w (w.note notice) kind := by
  refine ⟨_, w.note_timings notice, fun entry member => ?_⟩
  split at member
  · rw [List.mem_singleton.mp member]
    exact ⟨rfl, h⟩
  · cases member

theorem trans (h : Tells w w' kind) (now : w'.now = w.now) (h' : Tells w' w'' kind) :
    Tells w w'' kind := by
  obtain ⟨new, told, each⟩ := h
  obtain ⟨new', told', each'⟩ := h'
  refine ⟨new' ++ new, by rw [told', told, List.append_assoc], fun entry member => ?_⟩
  obtain late | early := List.mem_append.mp member
  · exact now ▸ each' entry late
  · exact each entry early

theorem mono (h : Tells w w' kind) (stronger : ∀ notice, kind notice → kind' notice) :
    Tells w w' kind' := by
  obtain ⟨new, told, each⟩ := h
  exact ⟨new, told, fun entry member => (each entry member).imp_right (stronger _)⟩

end Tells

section Scheduling
variable {w : World} {s : SchedulerId} {scheduler : Scheduler} {q : PoolId} {pool : Pool}

theorem schedule_defers (actor : Option PoolId) (hs : w.schedulers[s]? = some scheduler)
    (on : scheduler.pool = some q) (hq : w.pools[q]? = some pool)
    (unclosed : pool.worker.closing = false) (delay : Span) :
    Defers w (w.schedule actor s delay) s q delay := by
  obtain ⟨notice, -, asked⟩ := schedule_open actor hs on delay
  rw [asked]
  let task := Task.delayed ⟨s, scheduler.accepted⟩ delay
  let worker := if actor = some q then pool.worker.push task else pool.worker.submit task
  have added : worker.others = {task} + pool.worker.others := by
    dsimp only [worker]
    split
    · exact (pool.worker.push_others task).eq unclosed
    · have others := (pool.worker.submitAll_others [task]).eq unclosed
      rwa [Multiset.coe_singleton] at others
  refine ⟨scheduler, scheduler.accept, { pool with worker := worker }, hs, on, ?_, rfl, ?_, ?_⟩
  · rw [note_schedulers, onScheduler, List.getElem?_modify_eq]
    exact congrArg (Option.map Scheduler.accept) hs
  · rw [note_pools]
    exact (List.getElem?_modify_eq ..).trans (congrArg (Option.map _) hq)
  · rw [added]
    exact Multiset.mem_add.mpr (.inl (Multiset.mem_singleton_self task))

theorem schedule_tells (actor : Option PoolId) (s : SchedulerId) (delay : Span) :
    Tells w (w.schedule actor s delay) fun notice => ∃ scheduler q,
      w.schedulers[s]? = some scheduler ∧ scheduler.pool = some q ∧
        notice = .scheduled (w.threads q) delay := by
  unfold schedule
  split
  · exact .silent rfl
  · rename_i scheduler hs
    split
    · exact .silent (note_silent _ rfl)
    · rename_i q on
      dsimp only
      rw [threads_onScheduler, threads_submit]
      have asked : Tells w ((w.submit actor q (.delayed ⟨s, scheduler.accepted⟩ delay)).onScheduler
          s Scheduler.accept) fun _ => False := .silent rfl
      exact (asked.mono fun _ => False.elim).trans rfl (.note ⟨scheduler, q, hs, on, rfl⟩)

theorem schedule_now (w : World) (actor : Option PoolId) (s : SchedulerId) (delay : Span) :
    (w.schedule actor s delay).now = w.now := by
  unfold schedule
  split
  · rfl
  · split <;> exact note_now _ _

end Scheduling

theorem Defers.goes_on {w w' w'' : World} {s : SchedulerId} {q : PoolId} {delay : Span}
    (h : Defers w w' s q delay)
    (accepted : ∀ scheduler, w'.schedulers[s]? = some scheduler →
      w''.schedulers[s]?.map (·.accepted) = some scheduler.accepted)
    (others : ∀ pool, w'.pools[q]? = some pool →
      w''.pools[q]?.map (·.worker.others) = some pool.worker.others) : Defers w w'' s q delay := by
  obtain ⟨scheduler, scheduler', pool', hs, on, hs', more, hq, member⟩ := h
  obtain ⟨scheduler'', hs'', same⟩ := Option.map_eq_some_iff.mp (accepted scheduler' hs')
  obtain ⟨pool'', hq', others⟩ := Option.map_eq_some_iff.mp (others pool' hq)
  exact ⟨scheduler, scheduler'', pool'', hs, on, hs'', same.trans more, hq', others ▸ member⟩

section Turns
variable {w w' : World} {p q : PoolId} {s : SchedulerId} {delay : Span}

theorem map_getElem?_modify {f : α → α} {g : α → β} (h : ∀ x, g (f x) = g x) {l : List α}
    (i : Nat) {j : Nat} {x : α} (hj : l[j]? = some x) :
    (l.modify i f)[j]?.map g = some (g x) := by
  rw [List.getElem?_modify, hj]
  by_cases same : i = j
  · simp only [same, if_true, Option.map_eq_map, Option.map_some, h]
  · simp only [same, if_false, Option.map_eq_map, Option.map_some]

theorem setStage_others (w : World) (p : PoolId) (stage : Worker.Stage Task) {pool : Pool}
    (hq : w.pools[q]? = some pool) :
    (w.setStage p stage).pools[q]?.map (·.worker.others) = some pool.worker.others :=
  map_getElem?_modify (fun _ => by rfl) p hq

theorem Defers.goOn (h : Defers w w' s q delay) (task : Task) :
    Defers w (w'.goOn p task) s q delay :=
  h.goes_on (fun _ hs => congrArg (Option.map _) hs) fun _ hq => setStage_others w' p _ hq

theorem Defers.leaveRun (h : Defers w w' s q delay) (run : RunId) :
    Defers w (w'.leaveRun p run) s q delay := by
  refine h.goes_on (fun scheduler hs => ?_) fun _ hq => setStage_others _ p _ hq
  exact map_getElem?_modify (fun _ => by rfl) run.scheduler hs

theorem Sound.schedule_defers (h : w.Sound) (actor : Option PoolId) {scheduler : Scheduler}
    (hs : w.schedulers[s]? = some scheduler) (on : scheduler.pool = some q) (delay : Span) :
    Defers w (w.schedule actor s delay) s q delay := by
  obtain ⟨pool, hq⟩ : ∃ pool, w.pools[q]? = some pool :=
    ⟨_, List.getElem?_eq_getElem (h.pools s scheduler q hs on)⟩
  exact World.schedule_defers actor hs on hq (h.open_of_scheduler hs on hq) delay

theorem Sound.schedule_bears (h : w.Sound) (actor : Option PoolId) (s : SchedulerId)
    (delay : Span) : Tells w (w.schedule actor s delay) (Bears w (w.schedule actor s delay)) := by
  refine (schedule_tells actor s delay).mono ?_
  rintro _ ⟨scheduler, q, hs, on, rfl⟩
  exact ⟨s, q, h.schedule_defers actor hs on delay, rfl⟩

end Turns

section Loading
variable {w : World} {p : PoolId} {run : RunId} {c : CacheId} {cache : Cache} {reply : Reply}

theorem takeUp_tells (w : World) (c : CacheId) (config : Config) (reply : Reply) :
    Tells w (w.takeUp c config reply).1 fun notice =>
      ∃ error, reply.token = .error error ∧
        notice = .loadFailed error (config.delayAfter reply) := by
  unfold takeUp
  cases taken : reply.token with
  | ok token => exact .silent (note_silent _ rfl)
  | error error =>
    refine .note ⟨error, rfl, ?_⟩
    rw [Config.delayAfter, taken]

theorem conclude_tells (hc : w.caches[c]? = some cache) :
    Tells w (w.conclude p run c reply) fun notice =>
      (∃ error, reply.token = .error error ∧
        notice = .loadFailed error (cache.config.delayAfter reply)) ∨
      (∃ scheduler q, w.schedulers[cache.scheduler]? = some scheduler ∧ scheduler.pool = some q ∧
        notice = .scheduled (w.threads q) (cache.config.delayAfter reply)) ∨
      notice = .nextLoad (cache.config.delayAfter reply) := by
  obtain ⟨notice, -, taken⟩ := w.takeUp_eq c cache.config reply
  have failed := w.takeUp_tells c cache.config reply
  unfold conclude
  rw [hc]
  dsimp only
  rw [taken] at failed ⊢
  dsimp only at failed ⊢
  generalize settled : ((w.note notice).onCache c _).onCache c _ = v
  have threads (q : PoolId) : v.threads q = w.threads q := by
    rw [← settled, World.threads, World.threads]
    exact congrArg (fun pools : List Pool => (pools[q]?.map (·.threads)).getD "") (w.note_pools _)
  have schedulers : v.schedulers = w.schedulers := by
    rw [← settled]
    exact w.note_schedulers _
  have now : v.now = w.now := by
    rw [← settled]
    exact w.note_now _
  have asked := v.schedule_tells (some p) cache.scheduler (cache.config.delayAfter reply)
  rw [schedulers] at asked
  simp only [threads] at asked
  have noted : Tells w v fun notice => ∃ error, reply.token = .error error ∧
      notice = .loadFailed error (cache.config.delayAfter reply) := by
    rw [← settled]
    exact failed
  refine Tells.trans (noted.mono fun _ => .inl) now ?_
  refine Tells.trans (asked.mono fun _ h => .inr (.inl h)) (schedule_now ..) ?_
  refine Tells.trans (.note (.inr (.inr rfl))) (note_now _ _) (.silent ?_)
  exact rfl

theorem Deed.concludes {added : Multiset Task} {schedulers : List Scheduler} {caches : List Cache}
    (deed : Deed w (.conclude run c reply) added schedulers caches)
    (hc : w.caches[c]? = some cache) :
    caches = w.caches.modify c (·.conclude cache.config reply w.now) := by
  cases deed with
  | conclude hc' | concludeLast hc' => rw [Option.some.inj (hc.symm.trans hc')]
  | enterScript begins | enterRefresh begins | enterDropped begins =>
    cases begins with
    | waited waits => cases waits
  | abandon waits | wait waits => cases waits
  | pause pauses | resume pauses => cases pauses

theorem Sound.takesUpReply (h : w.Sound) {pool : Pool} (hp : w.pools[p]? = some pool)
    (stage : pool.worker.stage = .busy (.conclude run c reply)) :
    ∃ cache, TakesUpReply w (w.conclude p run c reply) c cache reply := by
  obtain ⟨fits, home⟩ := h.tasks p pool hp (.conclude run c reply) (by
    rw [Worker.tasks_busy stage]; exact Multiset.mem_add.mpr (.inl (Multiset.mem_singleton_self _)))
  have looked := (h.workers pool (List.mem_of_getElem? hp)).looked
  obtain ⟨added, -, deed⟩ := carryOn_does hp looked fits home
  obtain ⟨-, cache, -, -, hc, same⟩ := fits
  have caches : (w.conclude p run c reply).caches = _ := Deed.concludes deed hc
  refine ⟨cache, hc, ⟨pool, List.mem_of_getElem? hp, run, stage⟩, ?_, fun scheduler q hs on => ?_⟩
  · rw [caches, List.getElem?_modify_eq, hc]
    rfl
  · obtain ⟨notice, -, concluded⟩ := conclude_eq p reply hc same
    obtain ⟨pool', hq⟩ : ∃ pool', w.pools[q]? = some pool' :=
      ⟨_, List.getElem?_eq_getElem (h.pools _ scheduler q hs on)⟩
    have unclosed := h.open_of_scheduler hs on hq
    rw [same] at hs ⊢
    have schedulers : (w.settled c cache.config reply notice).schedulers = w.schedulers :=
      w.note_schedulers notice
    have pools : (w.settled c cache.config reply notice).pools = w.pools := w.note_pools notice
    have asked := World.schedule_defers (some p) (schedulers ▸ hs) on (pools ▸ hq) unclosed
      (cache.config.delayAfter reply)
    rw [concluded]
    refine Defers.leaveRun ?_ run
    obtain ⟨x, x', pool'', hs', on', hs'', more, hq', member⟩ := asked
    rw [schedulers] at hs'
    exact ⟨x, x', pool'', hs', on', by rwa [note_schedulers], more, by rwa [note_pools], member⟩

theorem Sound.conclude_bears (h : w.Sound) {pool : Pool} (hp : w.pools[p]? = some pool)
    (stage : pool.worker.stage = .busy (.conclude run c reply)) :
    Tells w (w.conclude p run c reply) (Bears w (w.conclude p run c reply)) := by
  obtain ⟨cache, takes⟩ := h.takesUpReply hp stage
  refine (conclude_tells takes.1).mono ?_
  rintro _ (⟨error, failed, rfl⟩ | ⟨scheduler, q, hs, on, rfl⟩ | rfl)
  · exact ⟨c, cache, reply, takes, failed, rfl⟩
  · exact ⟨_, q, takes.2.2.2 scheduler q hs on, rfl⟩
  · exact ⟨c, cache, reply, takes, rfl⟩

end Loading

section Steps
variable {w : World} {p : PoolId}

theorem Sound.perform_bears (h : w.Sound) (run : RunId) (action : Action) (rest : List Action) :
    Tells w (w.perform p run action rest) (Bears w (w.perform p run action rest)) := by
  cases action with
  | pause pause => exact .silent (pauseThen_timings ..)
  | panic => exact .silent rfl
  | start =>
    unfold perform unlessDropped
    dsimp only
    split
    · exact .silent rfl
    · exact .silent (start_timings ..)
  | shutdown =>
    unfold perform unlessDropped
    dsimp only
    split
    · exact .silent rfl
    · exact .silent (shutdown_timings ..)
  | schedule delay =>
    unfold perform unlessDropped
    dsimp only
    split
    · exact .silent rfl
    · refine (schedule_tells (some p) run.scheduler delay).mono ?_
      rintro _ ⟨scheduler, q, hs, on, rfl⟩
      exact ⟨_, q, (h.schedule_defers (some p) hs on delay).goOn _, rfl⟩

theorem Sound.carryOn_bears (h : w.Sound) {pool : Pool} (hp : w.pools[p]? = some pool) {task : Task}
    (stage : pool.worker.stage = .busy task) :
    Tells w (w.carryOn p task) (Bears w (w.carryOn p task)) := by
  cases task with
  | begin submission => exact .silent (enter_timings ..)
  | delayed | pending => exact .silent (awaitDelay_timings ..)
  | script run actions =>
    cases actions with
    | nil => exact .silent rfl
    | cons action rest => exact h.perform_bears run action rest
  | fetch run c => exact .silent (callIssuer_timings ..)
  | call run c pauses reply =>
    cases pauses with
    | nil => exact .silent rfl
    | cons pause rest => exact .silent (pauseThen_timings ..)
  | conclude run c reply => exact h.conclude_bears hp stage
  | inquiry => exact .silent rfl
  | guest pauses =>
    cases pauses with
    | nil => exact .silent rfl
    | cons pause rest => exact .silent (pauseThen_timings ..)

theorem Sound.work_bears (h : w.Sound) {pool : Pool} (hp : w.pools[p]? = some pool) :
    Tells w (w.work p) (Bears w (w.work p)) := by
  unfold World.work
  simp only [hp]
  split
  · rename_i task stage
    exact h.carryOn_bears hp stage
  · exact .silent rfl

theorem serve_bears {i : Nat} {reader : Reader} {cache : Cache}
    (hi : w.readers[i]? = some reader) (hc : w.caches[reader.cache]? = some cache)
    (unserved : reader.isServed = false) (asked : Instant) :
    Tells w (w.serve i reader cache asked) (Bears w (w.serve i reader cache asked)) := by
  by_cases sees : reader.sees cache = true
  · unfold serve
    rw [if_pos sees]
    exact .silent rfl
  · rw [Bool.not_eq_true] at sees
    have gives : GivesUp w (w.serve i reader cache asked) cache := by
      refine ⟨i, reader, asked, hi, hc, unserved, sees, ?_⟩
      unfold serve onReader
      simp [sees, hi]
    have elapsed : Bears w (w.serve i reader cache asked) (.waitElapsed cache.config.maxWait) :=
      ⟨cache, gives, rfl⟩
    refine Tells.trans (.note elapsed) (note_now _ _) (.silent ?_)
    unfold serve
    rw [sees]
    rfl

theorem attend_bears (w : World) (i : Nat) : Tells w (w.attend i) (Bears w (w.attend i)) := by
  unfold attend
  split
  · exact .silent rfl
  · rename_i reader hi
    split
    · exact .silent rfl
    · rename_i cache hc
      split
      · rename_i stage
        have unserved : reader.isServed = false := by rw [Reader.isServed, stage]
        unfold arrive
        split
        · unfold noteExpired
          split
          · exact .silent (note_silent _ rfl)
          · exact .silent rfl
        · split
          · exact serve_bears hi hc unserved _
          · exact .silent rfl
      · rename_i stage
        exact serve_bears hi hc (by rw [Reader.isServed, stage]) _
      · exact .silent rfl

end Steps

end TokenKeeper.World
