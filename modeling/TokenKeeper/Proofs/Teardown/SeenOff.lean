import TokenKeeper.Proofs.Teardown.Aftermath
import TokenKeeper.Proofs.World.Ending
/-! What it costs to let go of pools from outside. Only the end of a foreground pool is waited for,
five seconds at most, and only while its thread is held. -/
namespace TokenKeeper.World
variable {w w' middle : World} {p : PoolId} {ps : List PoolId}

def isForeground (w : World) (p : PoolId) : Bool := w.pools[p]?.any (!·.identity.background)

/-- Those of the pools that are foreground pools and have been torn down on the way. -/
def endedBetween (w w' : World) (ps : List PoolId) : List PoolId :=
  ps.filter fun p => w.isForeground p && !w.isTornDown p && w'.isTornDown p

/-- At the moment, with all done that is due, the pool's thread is held by a task for longer. -/
def HeldAt (w : World) (p : PoolId) (t : Instant) : Prop :=
  ∃ middle pool task free, Later w middle ∧ middle.move? = none ∧ middle.now ≤ t ∧
    (∀ time, middle.nextTime? = some time → t < time) ∧ middle.pools[p]? = some pool ∧
    pool.worker.stage = .held task free ∧ t < free

/-- What it costs to let go of the pools. Either it is done in time, and at any moment until then
the thread of one of the pools is held; or more goes on in this time than a wait has patience
for. -/
inductive Costs (w : World) (ps : List PoolId) (result : Option World) : Prop where
  | returns {after : World} (returned : result = some after) (le : w.now ≤ after.now)
      (soon : after.now ≤ w.now + (w.endedBetween after ps).length * grace)
      (held : ∀ t, w.now ≤ t → t < after.now → ∃ p ∈ w.endedBetween after ps, w.HeldAt p t)
  | endless {middle after : World} (later : Later w middle)
      (waits : ∃ p, p ∈ w.endedBetween middle ps) (passes : PassesIn patience middle after)
      (soon : after.now ≤ w.now + (ps.filter w.isForeground).length * grace)

/-- What lets go of pools from outside: of which ones, and what comes of it. -/
inductive LetsGo (w : World) : List PoolId → Option World → Prop where
  | dropHandle (p : PoolId) : LetsGo w [p] (w.dropHandle p)
  /-- All pools are let go of, in any order. -/
  | dropRegistry {order} (all : order.Perm (List.range w.pools.length)) :
      LetsGo w order (w.dropRegistry order)
  | shutdown (s : SchedulerId) :
      LetsGo w (w.schedulers[s]?.bind (·.pool)).toList ((w.retire s).map (·.2))
  | dropScheduler {s scheduler program} (hs : w.schedulers[s]? = some scheduler)
      (job : scheduler.job = .script program) : LetsGo w scheduler.pool.toList (w.dropScheduler s)
  | close {c cache} (hc : w.caches[c]? = some cache) :
      LetsGo w (w.schedulers[cache.scheduler]?.bind (·.pool)).toList (w.close c)
  | dropCache {c cache} (hc : w.caches[c]? = some cache) :
      LetsGo w (w.schedulers[cache.scheduler]?.bind (·.pool)).toList (w.dropCache c)

section Between

theorem mem_endedBetween : p ∈ w.endedBetween w' ps ↔ p ∈ ps ∧ w.isForeground p = true ∧
    w.isTornDown p = false ∧ w'.isTornDown p = true := by
  simp [endedBetween, and_assoc]

theorem isForeground_follows (follows : PoolsFollow w w') (there : p < w.pools.length) :
    w'.isForeground p = w.isForeground p := by
  obtain ⟨pool', hp', same⟩ := follows p _ (List.getElem?_eq_getElem there)
  simp only [isForeground, List.getElem?_eq_getElem there, hp', Option.any_some, same.identity]

theorem isTornDown_follows (follows : PoolsFollow w w') (torn : w.isTornDown p = true) :
    w'.isTornDown p = true := by
  obtain ⟨pool, hp, closing⟩ := isTornDown_iff.mp torn
  obtain ⟨pool', hp', later⟩ := follows p pool hp
  exact isTornDown_iff.mpr ⟨pool', hp', later.closing closing⟩

section Then
variable {next last : World} {rest : List PoolId}

theorem endedBetween_cons (w w' : World) (p : PoolId) (rest : List PoolId) :
    w.endedBetween w' (p :: rest) = w.endedBetween w' [p] ++ w.endedBetween w' rest :=
  List.filter_append [p] rest

theorem endedBetween_last (after : PoolsFollow next last) :
    (w.endedBetween next ps).Sublist (w.endedBetween last ps) := by
  refine List.monotone_filter_right _ fun p ended => ?_
  simp only [Bool.and_eq_true] at ended ⊢
  exact ⟨ended.1, isTornDown_follows after ended.2⟩

theorem endedBetween_next (before : PoolsFollow w next) (there : ∀ p ∈ ps, p < w.pools.length) :
    (next.endedBetween last ps).Sublist (w.endedBetween last ps) := by
  have same : next.endedBetween last ps =
      ps.filter fun p => w.isForeground p && !next.isTornDown p && last.isTornDown p := by
    refine List.filter_congr fun p member => ?_
    rw [isForeground_follows before (there p member)]
  rw [same]
  refine List.monotone_filter_right _ fun p ended => ?_
  simp only [Bool.and_eq_true, Bool.not_eq_true'] at ended ⊢
  refine ⟨⟨ended.1.1, ?_⟩, ended.2⟩
  by_contra torn
  rw [Bool.not_eq_false] at torn
  simp [isTornDown_follows before torn] at ended

theorem endedBetween_then (before : PoolsFollow w next) (after : PoolsFollow next last)
    (there : ∀ p ∈ rest, p < w.pools.length) :
    (w.endedBetween next [p] ++ next.endedBetween last rest).Sublist
      (w.endedBetween last (p :: rest)) := by
  rw [endedBetween_cons w last]
  exact (endedBetween_last after).append (endedBetween_next before there)

end Then

end Between

/-- Who waits outside for a pool that has just been torn down waits while its thread is held. -/
theorem held_until (h : Reachable w) (torn : w.isTornDown p = true) {limit : Option Instant}
    {fuel : Nat} (waited : awaitFrom (fun w => w.pools[p]?.all fun pool => pool.worker.isGone) limit
      fuel w = some w') {t : Instant} (from_here : w.now ≤ t) (before : t < w'.now) :
    w.HeldAt p t := by
  obtain ⟨middle, passes, quiet, le, next, stays⟩ := awaitFrom_interior h waited from_here before
  obtain ⟨pool, hp, closing⟩ :=
    isTornDown_iff.mp (isTornDown_follows (h.sound.poolsFollow passes.later) torn)
  have there : pool.worker.isGone = false := by
    rw [hp] at stays
    exact stays
  have still := (move?_none quiet).1 pool (List.mem_of_getElem? hp)
  rcases quiet_gone_or_held closing still with gone | ⟨task, free, held⟩
  · simp [Worker.isGone, gone] at there
  · obtain ⟨time, first, soon⟩ :=
      nextTime?_le_worker (List.mem_of_getElem? hp) (t := free) (by simp [Worker.wakes, held])
    exact ⟨middle, pool, task, free, passes.later, quiet, le, next, hp, held,
      (next time first).trans_le soon⟩

/-- A step that lets go of a pool takes no time, and then the pool is seen off. -/
theorem seeOff_costs (h : Reachable w) (step : Step w middle) (now : middle.now = w.now)
    (p : PoolId) : Costs w [p] (seeOff w p middle) := by
  have reached := h.later (.single step)
  unfold seeOff
  dsimp only
  split
  · rename_i ends
    simp only [Bool.and_eq_true, Bool.not_eq_true'] at ends
    obtain ⟨pool, hp, closes⟩ := (Option.any_eq_true _ _).mp ends.1
    rw [Bool.and_eq_true] at closes
    have torn : middle.isTornDown p = true := isTornDown_iff.mpr ⟨pool, hp, closes.1⟩
    have there := step.torn_down_there h.sound torn
    have foreground : w.isForeground p = true := by
      rw [← isForeground_follows (step.poolsFollow h.sound) there, isForeground, hp]
      exact closes.2
    -- It was open before, so it is this step that has torn it down.
    have before : w.isTornDown p = false := by
      have hp := List.getElem?_eq_getElem there
      have ends := ends.2
      rw [hp, Option.any_some, Bool.and_eq_false_iff, Bool.not_eq_false'] at ends
      rw [isForeground, hp, Option.any_some, Bool.not_eq_true'] at foreground
      rw [isTornDown, hp, Option.any_some]
      refine ends.resolve_right ?_
      simp [foreground]
    have ended {last : World} (follows : PoolsFollow middle last) :
        p ∈ w.endedBetween last [p] := mem_endedBetween.mpr
      ⟨List.mem_singleton_self p, foreground, before, isTornDown_follows follows torn⟩
    rcases awaitFrom_ends_limit (fun w => w.pools[p]?.all fun pool => pool.worker.isGone) patience
        reached (Nat.le_add_right middle.now grace) with
      ⟨last, waited, soon⟩ | ⟨last, passes, soon⟩
    · have later := awaitFrom_later reached waited
      have one := ended (reached.sound.poolsFollow later)
      have le := now ▸ Later.now_le reached.sound later
      refine .returns waited le ?_ fun t from_here until_then => ?_
      · have some_time := Nat.le_mul_of_pos_left grace (List.length_pos_of_mem one)
        rw [now] at soon
        exact soon.trans (Nat.add_le_add_left some_time _)
      · obtain ⟨u, pool, task, free, passes, rest⟩ :=
          held_until reached torn waited (now.trans_le from_here) until_then
        exact ⟨p, one, u, pool, task, free, .head step passes, rest⟩
    · refine .endless (.single step) ⟨p, ended (.same rfl)⟩ passes ?_
      rw [List.filter_cons_of_pos foreground]
      simpa [now] using soon
  · exact .returns rfl now.ge (now.trans_le (Nat.le_add_right _ _))
      fun t from_here before => absurd (now ▸ before) from_here.not_gt

/-- The next pool follows when the first one has been seen off. -/
theorem Costs.cons {rest : List PoolId} {first : Option World} {others : World → Option World}
    (h : Reachable w) (costs : Costs w [p] first)
    (goes : ∀ next, first = some next → Later w next)
    (further : ∀ next, first = some next → Costs next rest (others next))
    (later : ∀ next last, first = some next → others next = some last → Later next last)
    (there : ∀ p ∈ rest, p < w.pools.length) : Costs w (p :: rest) (first.bind others) := by
  have more : ([p].filter w.isForeground).length + (rest.filter w.isForeground).length =
      ((p :: rest).filter w.isForeground).length := by
    rw [← List.length_append, ← List.filter_append]
    rfl
  cases costs with
  | endless later waits passes soon =>
    obtain ⟨q, ended⟩ := waits
    refine .endless later ⟨q, ?_⟩ passes (soon.trans (Nat.add_le_add_left ?_ _))
    · rw [endedBetween_cons]
      exact List.mem_append_left _ ended
    · exact Nat.mul_le_mul_right _ (more ▸ Nat.le_add_right _ _)
  | @returns next returned le soon held =>
    have before := h.sound.poolsFollow (goes next returned)
    have sound := h.sound.later (goes next returned)
    have fewer : (w.endedBetween next [p]).length ≤ ([p].filter w.isForeground).length := by
      refine List.Sublist.length_le (List.monotone_filter_right _ fun q ended => ?_)
      simp only [Bool.and_eq_true] at ended
      exact ended.1.1
    cases further next returned with
    | endless later' waits passes soon' =>
      obtain ⟨q, ended⟩ := waits
      refine .endless ((goes next returned).trans later') ⟨q, ?_⟩ passes ?_
      · have there := (endedBetween_next before there).mem ended
        rw [endedBetween_cons]
        exact List.mem_append_right _ there
      · have same : rest.filter next.isForeground = rest.filter w.isForeground :=
          List.filter_congr fun q member => isForeground_follows before (there q member)
        rw [same] at soon'
        rw [← more, Nat.add_mul, ← Nat.add_assoc]
        refine soon'.trans (Nat.add_le_add_right (soon.trans ?_) _)
        exact Nat.add_le_add_left (Nat.mul_le_mul_right _ fewer) _
    | @returns last returned' le' soon' held' =>
      have after := sound.poolsFollow (later next last returned returned')
      have both := endedBetween_then (p := p) before after there
      have count := both.length_le
      rw [List.length_append] at count
      refine .returns (by rw [returned]; exact returned') (le.trans le') ?_
        fun t from_here until_then => ?_
      · refine le_trans ?_ (Nat.add_le_add_left (Nat.mul_le_mul_right _ count) _)
        rw [Nat.add_mul, ← Nat.add_assoc]
        exact soon'.trans (Nat.add_le_add_right soon _)
      -- Until the first pool has been seen off its thread is held, and after that another one.
      · by_cases early : t < next.now
        · obtain ⟨q, ended, holds⟩ := held t from_here early
          exact ⟨q, both.mem (List.mem_append_left _ ended), holds⟩
        · obtain ⟨q, ended, u, pool, task, free, passes, rest⟩ :=
            held' t (Nat.not_lt.mp early) until_then
          exact ⟨q, both.mem (List.mem_append_right _ ended), u, pool, task, free,
            (goes next returned).trans passes, rest⟩

theorem Costs.map {result : Option World} {f : World → World} (costs : Costs w ps result)
    (now : ∀ u, (f u).now = u.now) (pools : ∀ u, (f u).pools = u.pools) :
    Costs w ps (result.map f) := by
  cases costs with
  | endless later waits passes soon => exact .endless later waits passes soon
  | @returns last returned le soon held =>
    have same : w.endedBetween (f last) ps = w.endedBetween last ps := by
      unfold endedBetween isTornDown
      rw [pools]
    refine .returns (congrArg (Option.map f) returned) ?_ ?_ ?_
    · rwa [now]
    · rwa [now, same]
    · rwa [now, same]

theorem Costs.head (step : Step w middle) (now : middle.now = w.now)
    (pools : middle.pools = w.pools) {result : Option World} (costs : Costs middle ps result) :
    Costs w ps result := by
  have ended (last : World) : middle.endedBetween last ps = w.endedBetween last ps := by
    unfold endedBetween isForeground isTornDown
    rw [pools]
  have foreground : middle.isForeground = w.isForeground := by
    unfold isForeground
    rw [pools]
  cases costs with
  | endless later waits passes soon =>
    rw [ended] at waits
    rw [now, foreground] at soon
    exact .endless (.head step later) waits passes soon
  | returns returned le soon held =>
    rw [now, ended] at soon
    refine .returns returned (now ▸ le) soon fun t from_here before => ?_
    obtain ⟨q, member, u, pool, task, free, later, rest⟩ := held t (now.trans_le from_here) before
    exact ⟨q, ended _ ▸ member, u, pool, task, free, .head step later, rest⟩

theorem Costs.nothing (w : World) : Costs w ps (some w) :=
  .returns rfl le_rfl (Nat.le_add_right _ _) fun _ from_here before =>
    absurd before from_here.not_gt

section Operations

theorem retire_costs (h : Reachable w) (s : SchedulerId) :
    Costs w (w.schedulers[s]?.bind (·.pool)).toList ((w.retire s).map (·.2)) := by
  have step : Step w (w.shutdown none s).1 := .shutdown s
  have now := (Beside.shutdown w s).now
  unfold retire
  dsimp only
  cases on : w.schedulers[s]?.bind (·.pool) with
  | none =>
    have same : w.shutdown none s = (w, false) := by
      unfold World.shutdown
      rw [on]
    rw [same]
    exact .nothing w
  | some p =>
    have costs := seeOff_costs h step now p
    dsimp only
    cases seen : seeOff w p (w.shutdown none s).1 <;> rw [seen] at costs <;> exact costs

theorem unregister_costs (h : Reachable w) (p : PoolId) : Costs w [p] (w.unregister p) := by
  unfold unregister
  split
  · refine seeOff_costs h (.unregister p) ?_ p
    exact ((Beside.kept w p (f := fun pool => { pool with registered := false }) fun _ => rfl).trans
      (.release _ p)).now
  · exact .nothing w

theorem dropHandle_costs (h : Reachable w) (p : PoolId) : Costs w [p] (w.dropHandle p) := by
  refine seeOff_costs h (.giveHandle p) ?_ p
  exact ((Beside.kept w p (f := fun pool => { pool with handles := pool.handles - 1 })
    fun _ => rfl).trans (.release _ p)).now

theorem dropRegistry_costs (h : Reachable w) {order : List PoolId}
    (there : ∀ p ∈ order, p < w.pools.length) : Costs w order (w.dropRegistry order) := by
  unfold dropRegistry
  induction order generalizing w with
  | nil => exact .nothing w
  | cons p rest ih =>
    rw [List.foldlM_cons]
    refine Costs.cons h (unregister_costs h p) (fun next => unregister_later h) ?_ ?_
      fun q member => there q (List.mem_cons_of_mem _ member)
    · intro next first
      have later := unregister_later h first
      refine ih (h.later later) fun q member => ?_
      obtain ⟨pool, hp, -⟩ := h.sound.poolsFollow later q _
        (List.getElem?_eq_getElem (there q (List.mem_cons_of_mem _ member)))
      exact (List.getElem?_eq_some_iff.mp hp).1
    · exact fun next last first others =>
        dropRegistry_later (h.later (unregister_later h first)) rest others

theorem dropScheduler_costs (h : Reachable w) {s : SchedulerId} {scheduler : Scheduler}
    {program : Nat → List Action} (hs : w.schedulers[s]? = some scheduler)
    (job : scheduler.job = .script program) :
    Costs w scheduler.pool.toList (w.dropScheduler s) := by
  have step : Step w (w.onScheduler s fun scheduler => { scheduler with dropped := true }) :=
    .dropScheduler hs job
  have costs := retire_costs (h.later (.single step)) s
  have pool : (w.onScheduler s fun scheduler =>
      { scheduler with dropped := true }).schedulers[s]?.bind (·.pool) = scheduler.pool := by
    simp [onScheduler, hs]
  rw [pool] at costs
  have retires : w.dropScheduler s =
      ((w.onScheduler s fun scheduler => { scheduler with dropped := true }).retire s).map (·.2) :=
    Option.map_eq_bind.symm
  rw [retires]
  exact .head step rfl rfl costs

theorem close_costs (h : Reachable w) {c : CacheId} {cache : Cache}
    (hc : w.caches[c]? = some cache) :
    Costs w (w.schedulers[cache.scheduler]?.bind (·.pool)).toList (w.close c) := by
  have costs := retire_costs h cache.scheduler
  unfold close
  simp only [hc]
  cases retired : w.retire cache.scheduler with
  | none =>
    rw [retired] at costs
    exact costs
  | some result =>
    obtain ⟨done, after⟩ := result
    rw [retired] at costs
    refine costs.map (f := fun after => if done then after.note .cacheClosed else after)
      (fun after => ?_) fun after => ?_
    · split
      · exact after.note_now _
      · rfl
    · split
      · exact after.note_pools _
      · rfl

theorem dropCache_costs (h : Reachable w) {c : CacheId} {cache : Cache}
    (hc : w.caches[c]? = some cache) :
    Costs w (w.schedulers[cache.scheduler]?.bind (·.pool)).toList (w.dropCache c) := by
  have closes : w.dropCache c =
      (w.close c).map fun w => w.onCache c fun cache => { cache with dropped := true } :=
    Option.map_eq_bind.symm
  rw [closes]
  exact (close_costs h hc).map (fun _ => rfl) fun _ => rfl

theorem LetsGo.costs {result : Option World} (lets_go : LetsGo w ps result) (h : Reachable w) :
    Costs w ps result := by
  cases lets_go with
  | dropHandle p => exact dropHandle_costs h p
  | dropRegistry all =>
    exact dropRegistry_costs h fun p member => List.mem_range.mp (all.mem_iff.mp member)
  | shutdown s => exact retire_costs h s
  | dropScheduler hs job => exact dropScheduler_costs h hs job
  | close hc => exact close_costs h hc
  | dropCache hc => exact dropCache_costs h hc

end Operations

end TokenKeeper.World
