import Mathlib.Data.Multiset.Bind
import TokenKeeper.Proofs.World.Preserved
/-! The tasks of all workers, and among them the runs of one scheduler. A worker's step changes
them by what it takes and leaves; nothing of an open scheduler is lost. -/
namespace TokenKeeper

theorem coe_modify {l : List α} {i : Nat} {x : α} (hi : l[i]? = some x) (f : α → α) :
    ∃ rest : Multiset α, (l : Multiset α) = x ::ₘ rest ∧
      (l.modify i f : Multiset α) = f x ::ₘ rest := by
  obtain ⟨bound, rfl⟩ := List.getElem?_eq_some_iff.mp hi
  refine ⟨(l.take i ++ l.drop (i + 1) : List α), ?_, ?_⟩
  · rw [Multiset.cons_coe, Multiset.coe_eq_coe]
    nth_rewrite 1 [← List.take_append_drop i l]
    rw [List.drop_eq_getElem_cons bound]
    exact List.perm_middle
  · rw [Multiset.cons_coe, Multiset.coe_eq_coe, List.modify_eq_take_cons_drop bound]
    exact List.perm_middle

namespace World
variable {w w' : World}

def tasks (w : World) : Multiset Task := (w.pools : Multiset Pool).bind (·.worker.tasks)

/-- The runs of the scheduler that have been submitted, wait for their delays or go on. -/
def live (w : World) (s : SchedulerId) : Multiset Task := w.tasks.filter (·.scheduler? = some s)

theorem mem_tasks {task : Task} : task ∈ w.tasks ↔
    ∃ (p : PoolId) (pool : Pool), w.pools[p]? = some pool ∧ task ∈ pool.worker.tasks := by
  unfold tasks
  simp only [Multiset.mem_bind, Multiset.mem_coe, List.mem_iff_getElem?]
  constructor
  · rintro ⟨pool, ⟨p, hp⟩, ht⟩
    exact ⟨p, pool, hp, ht⟩
  · rintro ⟨p, pool, hp, ht⟩
    exact ⟨pool, ⟨p, hp⟩, ht⟩

theorem mem_live {s : SchedulerId} {task : Task} : task ∈ w.live s ↔
    ∃ (p : PoolId) (pool : Pool), w.pools[p]? = some pool ∧ task ∈ pool.worker.tasks ∧
      task.scheduler? = some s := by
  unfold live
  rw [Multiset.mem_filter, mem_tasks]
  constructor
  · rintro ⟨⟨p, pool, hp, ht⟩, same⟩
    exact ⟨p, pool, hp, ht, same⟩
  · rintro ⟨p, pool, hp, ht, same⟩
    exact ⟨⟨p, pool, hp, ht⟩, same⟩

theorem live_congr (pools : w'.pools = w.pools) (s : SchedulerId) : w'.live s = w.live s := by
  unfold live tasks
  rw [pools]

theorem tasks_modify {p : PoolId} {pool : Pool} (hp : w.pools[p]? = some pool) {f : Pool → Pool}
    (pools : w'.pools = w.pools.modify p f) :
    ∃ beyond, w.tasks = pool.worker.tasks + beyond ∧ w'.tasks = (f pool).worker.tasks + beyond := by
  obtain ⟨rest, before, after⟩ := coe_modify hp f
  refine ⟨rest.bind (·.worker.tasks), ?_, ?_⟩
  · unfold tasks
    rw [before, Multiset.cons_bind]
  · unfold tasks
    rw [pools, after, Multiset.cons_bind]

theorem live_modify (h : w.Sound) {p : PoolId} {pool : Pool} (hp : w.pools[p]? = some pool)
    {f : Pool → Pool} (pools : w'.pools = w.pools.modify p f) {s : SchedulerId}
    {scheduler : Scheduler} (hs : w.schedulers[s]? = some scheduler)
    {gone added others : Multiset Task} (before : pool.worker.tasks = gone + others)
    (left : Left pool.worker.closing (f pool).worker.tasks (added + others))
    (kept : ∀ next ∈ added, next.scheduler? = some s → ∃ task ∈ gone, task.scheduler? = some s) :
    ∃ rest, w.live s = gone.filter (·.scheduler? = some s) + rest ∧
      Left scheduler.isShutDown (w'.live s) (added.filter (·.scheduler? = some s) + rest) := by
  obtain ⟨beyond, was, is⟩ := tasks_modify hp pools
  refine ⟨others.filter (·.scheduler? = some s) + beyond.filter (·.scheduler? = some s), ?_, ?_⟩
  · unfold live
    rw [was, before, Multiset.filter_add, Multiset.filter_add, add_assoc]
  · have mine := left.filter (·.scheduler? = some s)
    rw [Multiset.filter_add] at mine
    unfold live
    rw [is, Multiset.filter_add, ← add_assoc]
    refine (show Left scheduler.isShutDown _ _ from ⟨mine.le, fun on => ?_⟩).add_right _
    cases closing : pool.worker.closing with
    | false => exact mine.eq closing
    | true =>
      -- An open scheduler has no tasks on a pool that closes.
      have away : ∀ task ∈ pool.worker.tasks, task.scheduler? ≠ some s := by
        intro task ht same
        obtain ⟨q, hq⟩ := Scheduler.not_isShutDown_iff.mp on
        obtain rfl := (h.tasks p pool hp task ht).2 s scheduler q same hs hq
        have free := h.owned q pool hp closing
        rw [← Bool.not_eq_true, isOwned_iff] at free
        exact free (.inr ⟨s, scheduler, hs, hq⟩)
      have none_left :
          added.filter (·.scheduler? = some s) + others.filter (·.scheduler? = some s) = 0 := by
        rw [← Multiset.filter_add]
        refine Multiset.filter_eq_nil.mpr fun next hn same => ?_
        obtain new | other := Multiset.mem_add.mp hn
        · obtain ⟨task, ht, same'⟩ := kept next new same
          exact away task (before ▸ Multiset.mem_add.mpr (.inl ht)) same'
        · exact away next (before ▸ Multiset.mem_add.mpr (.inr other)) same
      rw [none_left]
      exact Multiset.le_zero.mp (none_left ▸ mine.le)

theorem live_keep (h : w.Sound) {p : PoolId} {f : Pool → Pool}
    (pools : w'.pools = w.pools.modify p f) {s : SchedulerId} {scheduler : Scheduler}
    (hs : w.schedulers[s]? = some scheduler)
    (each : ∀ pool, w.pools[p]? = some pool →
      ∃ added : Multiset Task, (∀ task ∈ added, task.scheduler? ≠ some s) ∧
        Left pool.worker.closing (f pool).worker.tasks (added + pool.worker.tasks)) :
    Left scheduler.isShutDown (w'.live s) (w.live s) := by
  cases hp : w.pools[p]? with
  | none =>
    rw [List.modify_eq_self (List.getElem?_eq_none_iff.mp hp)] at pools
    exact .of_eq (live_congr pools s)
  | some pool =>
    obtain ⟨added, foreign, left⟩ := each pool hp
    obtain ⟨rest, was, is⟩ := live_modify h hp pools hs (zero_add _).symm left
      fun next hn same => absurd same (foreign next hn)
    rw [Multiset.filter_eq_nil.mpr foreign, zero_add] at is
    rw [was, Multiset.filter_zero, zero_add]
    exact is

end World
end TokenKeeper
