import TokenKeeper.Proofs.Chain.Published
import TokenKeeper.Proofs.Docket.Step
/-! A run that loads a token takes up what its call of the issuer brings before it returns. -/
namespace TokenKeeper

def Task.callsBegun : Task → Nat
  | call .. | conclude .. => 1
  | _ => 0

namespace Chain
variable {held exact : Prop} {start : Instant} {x x' : Chain} {k n : Nat} {task : Task}
  {added : Multiset Task} {scheduler : Scheduler} {cache : Cache}

/-- A run that has begun ends when it takes up its reply, and not otherwise. -/
theorem Turn.run_ends (turn : x.Turn task added scheduler cache)
    (begun : k < x.scheduler.runs.length) : scheduler.runs[k]? = x.scheduler.runs[k]? ∨
      ∃ run c reply ended, task = .conclude run c reply ∧ run.place = k ∧
        scheduler.runs[k]? = some ended ∧ ended.ending = some (.returned x.now) := by
  have ends {scheduler : Scheduler} (runs : scheduler.runs = x.scheduler.runs) {run : RunId}
      {c : CacheId} {reply : Reply} :
      let after := (scheduler.endRun run.place (.returned x.now)).runs
      after[k]? = x.scheduler.runs[k]? ∨
        ∃ run' c' reply' ended, Task.conclude run c reply = .conclude run' c' reply' ∧
          run'.place = k ∧ after[k]? = some ended ∧ ended.ending = some (.returned x.now) := by
    dsimp only
    rw [Scheduler.endRun, runs]
    by_cases own : run.place = k
    · let ended : Run := { x.scheduler.runs[k] with ending := some (.returned x.now) }
      refine .inr ⟨run, c, reply, ended, rfl, own, ?_, rfl⟩
      rw [own, List.getElem?_modify_eq, List.getElem?_eq_getElem begun]
      rfl
    · exact .inl (List.getElem?_modify_ne _ _ own)
  cases turn with
  | enter => exact .inl (List.getElem?_append_left begun)
  | enterDropped =>
    refine .inl ?_
    rw [Scheduler.endRun]
    exact (List.getElem?_modify_ne _ _ begun.ne').trans (List.getElem?_append_left begun)
  | conclude | concludeLast => exact ends rfl
  | abandon | wait | call | pause | resume | endCall => exact .inl rfl

/-- The run at the place makes the call of this number, or has returned when it took up the
reply. -/
structure Loads (x : Chain) (k n : Nat) : Prop where
  begun : k < x.scheduler.runs.length
  goes : ∀ task ∈ x.live, task.place? = some k → x.cache.attempts.length = n + task.callsBegun
  ended : ∀ run ending, x.scheduler.runs[k]? = some run → run.ending = some ending →
    ∃ call time, x.cache.calls[n]? = some call ∧ call.concluded = some time ∧
      ending = .returned time

theorem Turn.callsBegun (turn : x.Turn task added scheduler cache)
    (begun : k < x.scheduler.runs.length)
    (goes : task.place? = some k → x.cache.attempts.length = n + task.callsBegun) :
    ∀ next ∈ added, next.place? = some k → cache.attempts.length = n + next.callsBegun := by
  intro next hn place
  cases turn with
  | enter =>
    cases Multiset.mem_singleton.mp hn
    exact absurd (Option.some.inj place) begun.ne'
  | call =>
    cases Multiset.mem_singleton.mp hn
    exact congrArg (· + 1) (goes place)
  | endCall =>
    cases Multiset.mem_singleton.mp hn
    exact (x.cache.onLatest_length _).trans (goes place)
  | pause | resume =>
    cases Multiset.mem_singleton.mp hn
    exact goes place
  | wait | conclude =>
    cases Multiset.mem_singleton.mp hn
    cases place
  | abandon | enterDropped | concludeLast => cases hn

theorem Loads.step (h : x.Loads k n) (sound : x.Sound exact start) (step : Chain.Step held x x') :
    x'.Loads k n := by
  cases step with
  | @turn task added rest scheduler cache live turn =>
    obtain rfl := sound.no_rest live
    have member : task ∈ x.live := by simp [live]
    have stands := sound.stands task member
    rw [add_zero]
    have goes := turn.callsBegun h.begun (h.goes task member)
    obtain same | ⟨run, c, reply, ended, rfl, rfl, last, returned⟩ := turn.run_ends h.begun
    · have here := same.trans (List.getElem?_eq_getElem h.begun)
      refine ⟨(List.getElem?_eq_some_iff.mp here).1, goes, fun run ending hr he => ?_⟩
      obtain ⟨call, time, hc, taken, returned⟩ := h.ended run ending (same ▸ hr) he
      exact ⟨call, time, turn.calls_stay stands hc (by rw [taken]; rfl), taken, returned⟩
    · refine ⟨(List.getElem?_eq_some_iff.mp last).1, goes, fun run ending hr he => ?_⟩
      obtain rfl := Option.some.inj (last.symm.trans hr)
      obtain rfl := Option.some.inj (returned.symm.trans he)
      have own := h.goes _ member rfl
      cases stands with
      | @conclude _ _ attempt earlier _ _ attempts =>
        rw [attempts, List.length_cons] at own
        obtain rfl : earlier.length = n := Nat.succ.inj own
        have after := conclude_attempts attempts x.cache.config reply x.now
        have calls : cache.attempts = { attempt with concluded := some x.now } :: earlier := by
          cases turn with
          | conclude | concludeLast => exact after
          | enter begins | enterDropped begins => cases begins with
            | waited waits => cases waits
          | abandon waits | wait waits => cases waits
        refine ⟨{ attempt with concluded := some x.now }, x.now, ?_, rfl, rfl⟩
        unfold Cache.calls
        rw [calls, List.reverse_cons, ← List.length_reverse, List.getElem?_concat_length]
  | tick | shut | drop => exact ⟨h.begun, h.goes, h.ended⟩
  | lose off le =>
    exact ⟨h.begun, fun task ht => h.goes task (Multiset.mem_of_le le ht), h.ended⟩

theorem Loads.later (h : x.Loads k n) (sound : x.Sound exact start)
    (later : Chain.Later (¬exact) x x') : x'.Loads k n := by
  induction later with
  | refl => exact h
  | tail before step ih => exact ih.step (sound.later before) step

/-- A run that has not ended makes the next call, or is at the latest one. -/
theorem Sound.loads (sound : x.Sound exact start) (ht : task ∈ x.live)
    (place : task.place? = some k) (begun : k < x.scheduler.runs.length)
    (goes : ∀ run, x.scheduler.runs[k]? = some run → run.ending = none) :
    ∃ n, x.Loads k n ∧ ∀ call, x.cache.calls[n]? = some call → call.concluded = none := by
  have loads {n : Nat} (made : x.cache.attempts.length = n + task.callsBegun) : x.Loads k n := by
    refine ⟨begun, fun next hn _ => ?_, fun run ending hr ended => ?_⟩
    · rw [sound.live_eq ht] at hn
      rw [Multiset.mem_singleton.mp hn, made]
    · cases (goes run hr).symm.trans ended
  have latest {attempt : Attempt} {earlier : List Attempt}
      (attempts : x.cache.attempts = attempt :: earlier) (waits : attempt.concluded = none) :
      ∀ call, x.cache.calls[earlier.length]? = some call → call.concluded = none := by
    intro call hc
    unfold Cache.calls at hc
    rw [attempts, List.reverse_cons, ← List.length_reverse, List.getElem?_concat_length] at hc
    rw [← Option.some.inj hc, waits]
  cases sound.stands task ht with
  | begin | delayed | pending => cases place
  | fetch =>
    refine ⟨x.cache.attempts.length, loads rfl, fun call hc => ?_⟩
    have bound := (List.getElem?_eq_some_iff.mp hc).1
    exact absurd (List.length_reverse ▸ bound) (lt_irrefl _)
  | call attempts _ waits | conclude attempts _ waits =>
    exact ⟨_, loads (by rw [attempts]; rfl), latest attempts waits⟩

end Chain
end TokenKeeper
