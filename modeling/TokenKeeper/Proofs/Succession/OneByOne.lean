import TokenKeeper.Proofs.Docket.InFlight
import TokenKeeper.Proofs.Succession.Line
/-! A job that asks for its next run as the last thing it does never has two runs at once, whoever
starts its scheduler or shuts it down, and whenever. -/
namespace TokenKeeper

def Run.Precedes (first second : Run) : Prop :=
  ∃ ended, first.ending = some (.returned ended) ∧ first.began ≤ ended ∧ ended ≤ second.began

instance : IsTrans Run Run.Precedes where
  trans _ _ _ := fun ⟨ended, returned, began, before⟩ ⟨_, _, began', before'⟩ =>
    ⟨ended, returned, began, (before.trans began').trans before'⟩

variable {program : Nat → List Action} {now : Instant}

theorem Succession.pairwise {runs : List Run} (h : Succession program now runs) :
    runs.Pairwise Run.Precedes := by
  rw [← List.isChain_iff_pairwise, List.isChain_iff_getElem]
  intro k bound
  have hk := List.getElem?_eq_getElem (Nat.lt_of_succ_lt bound)
  obtain ⟨delay, ended, -, returned, early⟩ :=
    h.called k _ _ hk (List.getElem?_eq_getElem bound)
  refine ⟨ended, returned, h.forward _ (List.mem_of_getElem? hk) ended returned, ?_⟩
  exact (Nat.le_add_right ended _).trans early

/-- The runs of a scheduler come one after the other, each of them called by the one before. -/
structure Scheduler.OneByOne (scheduler : Scheduler) (program : Nat → List Action) : Prop where
  executing : scheduler.executing.card ≤ 1
  apart : scheduler.runs.Pairwise Run.Precedes
  /-- No delay is longer than thirty years. -/
  delayed : ∀ (k : Nat) first second, scheduler.runs[k]? = some first →
    scheduler.runs[k + 1]? = some second → ∃ delay ended,
      (program k).getLast? = some (.schedule delay) ∧ first.ending = some (.returned ended) ∧
        ended + min delay Span.longestRest ≤ second.began

theorem Succession.oneByOne {scheduler : Scheduler} (h : Succession program now scheduler.runs) :
    scheduler.OneByOne program where
  executing := by
    unfold Scheduler.executing
    rw [Multiset.coe_card, List.length_map]
    have apart := h.pairwise.filter (·.ending.isNone)
    have unended (run) (hr : run ∈ scheduler.runs.filter (·.ending.isNone)) :
        run.ending.isNone = true := (List.mem_filter.mp hr).2
    generalize scheduler.runs.filter (·.ending.isNone) = runs at apart unended
    cases apart with
    | nil => exact Nat.zero_le 1
    | @cons first rest before _ =>
      have last : rest = [] := by
        refine List.eq_nil_iff_forall_not_mem.mpr fun second hr => ?_
        obtain ⟨ended, returned, -⟩ := before second hr
        have going := unended first (List.mem_cons_self ..)
        rw [returned] at going
        cases going
      rw [last]
      exact le_rfl
  apart := h.pairwise
  delayed := h.called

namespace World
variable {w w₀ : World} {s : SchedulerId} {p : PoolId} {scheduler : Scheduler}

theorem Standing.card_place (h : w.Standing s program scheduler) :
    ((w.live s).filter (·.place?.isSome)).card ≤ 1 := by
  have one {task : Task} (live : w.live s ≤ {task}) :
      ((w.live s).filter (·.place?.isSome)).card ≤ 1 :=
    (Multiset.card_le_card (Multiset.filter_le _ _)).trans (Multiset.card_le_card live)
  cases h with
  | nothing live => simp [live]
  | begins live | waits live | goesOn live => exact one live
  | handsOn live => exact Multiset.card_le_card (Multiset.filter_le_filter _ live)

/-- Runs that ask for the next one never overlap, as long as nobody outside asks for one. -/
theorem runs_never_overlap (h : Reachable w₀) {pool : Pool} (hp : w₀.pools[p]? = some pool)
    (kept : pool.isKept = true) (asksLast : ∀ k, Action.AsksLast (program k))
    (later : Relation.ReflTransGen (Unprompted w₀.schedulers.length)
      (w₀.addScheduler p (.script program)).2 w) :
    ∃ scheduler, w.schedulers[w₀.schedulers.length]? = some scheduler ∧
      scheduler.OneByOne program ∧
        ((w.live w₀.schedulers.length).filter (·.place?.isSome)).card ≤ 1 := by
  have sound := (Step.addScheduler hp kept program).sound h.sound
  obtain ⟨-, scheduler, line⟩ := (h.sound.inLine p program).later sound asksLast later
  exact ⟨scheduler, line.there, line.runs.oneByOne, line.standing.card_place⟩

def onePool : World := { pools := [{ identity := ⟨"pool", true⟩, worker := .fresh .start }] }

theorem reachable_onePool : Reachable onePool :=
  reachable_new.later (.single (.openPool ⟨"pool", true⟩))

theorem unprompted_begun (program : Nat → List Action) {t : Instant}
    (quiet : (moves 20 (begun program)).quietTill t = true) :
    Relation.ReflTransGen (Unprompted 0) (onePool.addScheduler 0 (.script program)).2
      ((begun program).onTo t) := by
  have there : (onePool.addScheduler 0 (.script program)).2.schedulers[0]? =
      some { job := .script program, pool := some 0 } := rfl
  have start : Unprompted 0 (onePool.addScheduler 0 (.script program)).2 (begun program) :=
    .start there rfl
  exact .head start (Unprompted.passes (passes_onTo quiet))

/-- Each run asks for the next one, the first one at once and the others when they have rested. -/
def again : Nat → List Action
  | 0 => [.schedule (Span.ofMillis 15)]
  | _ => [.pause (.rest (Span.ofMillis 10)), .schedule (Span.ofMillis 5)]

/-- Shut down while it rests, the second run is the last one. -/
theorem runs_never_overlap_again : ∃ w scheduler, w.schedulers[0]? = some scheduler ∧
    firstRuns w = some [(Instant.start, some Instant.start),
      (Instant.start + Span.ofMillis 15, some (Instant.start + Span.ofMillis 25))] ∧
    scheduler.OneByOne again := by
  let rests := (begun again).onTo (Instant.start + Span.ofMillis 15)
  let shut := (rests.shutdown none 0).1
  let w := shut.onTo (Instant.start + Span.ofMillis 25)
  have quiet : (moves 20 (begun again)).quietTill (Instant.start + Span.ofMillis 15) = true := by
    decide +kernel
  have quiet' : (moves 20 shut).quietTill (Instant.start + Span.ofMillis 25) = true := by
    decide +kernel
  have asksLast (k : Nat) : Action.AsksLast (again k) := by
    refine .of_dropLast fun delay asks => ?_
    cases k <;> simp [again] at asks
  obtain ⟨scheduler, hs, one, -⟩ := runs_never_overlap reachable_onePool rfl rfl asksLast
    (((unprompted_begun again quiet).tail (.shutdown rests 0)).trans
      (Unprompted.passes (passes_onTo quiet')))
  exact ⟨w, scheduler, hs, by decide +kernel, one⟩

def farOff : Nat → List Action
  | 0 => [.schedule (Span.longestRest + Span.ofMillis 1)]
  | _ => []

/-- The next run begins when the longest rest is over, before its delay is. -/
theorem begins_before_its_delay : ∃ w, (∀ k, Action.AsksLast (farOff k)) ∧
    Relation.ReflTransGen (Unprompted 0) (onePool.addScheduler 0 (.script farOff)).2 w ∧
    firstRuns w = some [(Instant.start, some Instant.start),
      (Instant.start + Span.longestRest, some (Instant.start + Span.longestRest))] ∧
    ∃ delay, (farOff 0).getLast? = some (.schedule delay) ∧
      Instant.start + Span.longestRest < Instant.start + delay := by
  let w := (begun farOff).onTo (Instant.start + Span.longestRest)
  refine ⟨w, fun k => .of_dropLast fun delay asks => ?_, unprompted_begun farOff
    (by decide +kernel), by decide +kernel, _, rfl, by decide +kernel⟩
  cases k <;> simp [farOff] at asks

end World
end TokenKeeper
