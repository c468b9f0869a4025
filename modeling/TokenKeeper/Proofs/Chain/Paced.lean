import TokenKeeper.Proofs.Chain.OnTime
import TokenKeeper.Proofs.Docket.Agenda
/-! How long the calls of an issuer take. On a worker that nothing holds a call is over when the
issuer has it, whatever else is on the worker. -/
namespace TokenKeeper

def Call.doneAt (call : Call) (t : Instant) : Instant := Action.doneAt (call.pauses.map .pause) t

def Call.IsGentle (call : Call) : Prop := ∀ length, .hold length ∈ call.pauses → length = 0

/-- The call that began then has these pauses left, and will be over when the issuer has it. -/
structure Call.Paces (call : Call) (began : Instant) (pauses : List Pause) (now : Instant) :
    Prop where
  holds : ∀ length, .hold length ∈ pauses → .hold length ∈ call.pauses
  done : OnTime call.IsGentle (Action.doneAt (pauses.map .pause) now) (call.doneAt began)

namespace Call.Paces
variable {call : Call} {began now : Instant} {pause : Pause} {rest : List Pause}

theorem new (call : Call) (now : Instant) : call.Paces now call.pauses now :=
  ⟨fun _ => id, le_rfl, fun _ => le_rfl⟩

theorem fixed (h : call.Paces began (pause :: rest) now) {due : Instant}
    (hd : pause.due? now = some due) : call.Paces began (.till due :: rest) now := by
  constructor
  · intro length member
    apply h.holds length
    apply List.mem_cons_of_mem
    simpa using member
  · simpa [Action.doneAt, Pause.doneAt_due hd] using h.done

theorem resumes (h : call.Paces began (pause :: rest) now)
    (lapsed : ∀ due, pause.due? now = some due → due ≤ now) : call.Paces began rest now := by
  have left : ∀ length, .hold length ∈ rest → .hold length ∈ call.pauses := fun length member =>
    h.holds length (List.mem_cons_of_mem _ member)
  have mono := Action.doneAt_mono (rest.map .pause) (pause.le_doneAt now)
  refine ⟨left, mono.trans h.done.early, fun gentle => ?_⟩
  have free : ∀ length, pause = .hold length → length = 0 := by
    rintro length rfl
    apply gentle
    apply h.holds
    simp
  simpa [Action.doneAt, Pause.doneAt_lapsed lapsed free] using h.done.late gentle

theorem tick {due t : Instant} (h : call.Paces began (.till due :: rest) now) (ahead : now < due)
    (le : t ≤ due) : call.Paces began (.till due :: rest) t := by
  have same : (Pause.till due).doneAt t = (Pause.till due).doneAt now := by
    simp [Pause.doneAt, le, ahead.le]
  refine ⟨h.holds, ?_⟩
  simpa [Action.doneAt, same] using h.done

end Call.Paces

namespace Chain
variable {start : Instant} {x x' : Chain} {task : Task} {added : Multiset Task}
  {scheduler : Scheduler} {cache : Cache}

/-- Each call so far took as long as the issuer has it, and so will the one that goes on. -/
structure Paced (x : Chain) : Prop where
  ended : ∀ (k : Nat) call time reply, x.cache.calls[k]? = some call →
    call.ended = some (time, reply) →
      OnTime (x.cache.issuer k).IsGentle time ((x.cache.issuer k).doneAt call.began)
  live : ∀ run c pauses reply, .call run c pauses reply ∈ x.live →
    ∃ latest earlier, x.cache.attempts = latest :: earlier ∧
      (x.cache.issuer earlier.length).Paces latest.began pauses x.now

theorem Fresh.paced (fresh : x.Fresh) : x.Paced := by
  obtain ⟨submission, live⟩ := fresh.live
  constructor
  · simp [Cache.calls, fresh.attempts]
  · simp [live]

theorem Paced.onLatest (h : x.Paced) {latest latest' : Attempt} {earlier : List Attempt}
    (before : x.cache.attempts = latest :: earlier) (after : cache.attempts = latest' :: earlier)
    (issuer : cache.issuer = x.cache.issuer)
    (ended : ∀ time reply, latest'.ended = some (time, reply) →
      OnTime (x.cache.issuer earlier.length).IsGentle time
        ((x.cache.issuer earlier.length).doneAt latest'.began)) :
    ∀ (k : Nat) call time reply, cache.calls[k]? = some call →
      call.ended = some (time, reply) →
        OnTime (cache.issuer k).IsGentle time ((cache.issuer k).doneAt call.began) := by
  intro k call time reply hc he
  rw [issuer]
  rw [Cache.calls, after, List.reverse_cons] at hc
  obtain old | ⟨place, rfl⟩ := getElem?_concat_cases hc
  · apply h.ended k call time reply _ he
    rw [Cache.calls, before, List.reverse_cons, List.getElem?_append_left]
    · exact old
    · exact (List.getElem?_eq_some_iff.mp old).1
  · rw [place, List.length_reverse]
    exact ended time reply he

theorem Turn.paced (turn : x.Turn task added scheduler cache) (h : x.Paced)
    (sound : x.Sound True start) (member : task ∈ x.live) :
    Chain.Paced ⟨x.now, cache, scheduler, added⟩ := by
  have stands := sound.stands task member
  cases turn with
  | enter | wait => exact ⟨h.ended, by simp⟩
  | enterDropped | abandon => exact ⟨h.ended, by simp⟩
  | call =>
    constructor
    · intro k call time reply hc he
      rw [Cache.calls, Cache.beginCall, List.reverse_cons] at hc
      obtain old | ⟨-, rfl⟩ := getElem?_concat_cases hc
      · exact h.ended k call time reply old he
      · cases he
    · intro run c pauses reply ht
      cases Multiset.mem_singleton.mp ht
      exact ⟨_, _, rfl, .new _ _⟩
  | pause hd =>
    refine ⟨h.ended, fun run c pauses reply ht => ?_⟩
    cases Multiset.mem_singleton.mp ht
    obtain ⟨latest, earlier, attempts, paces⟩ := h.live _ _ _ _ member
    exact ⟨latest, earlier, attempts, paces.fixed hd⟩
  | resume lapsed =>
    refine ⟨h.ended, fun run c pauses reply ht => ?_⟩
    cases Multiset.mem_singleton.mp ht
    obtain ⟨latest, earlier, attempts, paces⟩ := h.live _ _ _ _ member
    exact ⟨latest, earlier, attempts, paces.resumes lapsed⟩
  | endCall =>
    obtain ⟨latest, earlier, attempts, paces⟩ := h.live _ _ _ _ member
    refine ⟨h.onLatest attempts (onLatest_attempts attempts _) rfl fun time reply he => ?_, by simp⟩
    cases he
    exact paces.done
  | conclude | concludeLast =>
    cases stands with
    | @conclude _ _ latest earlier ended _ attempts he hc time =>
      have after := conclude_attempts attempts x.cache.config
      have place : x.cache.calls[earlier.length]? = some latest := by simp [Cache.calls, attempts]
      refine ⟨h.onLatest attempts (after _ _) (Cache.Follows.conclude x.cache _ _ _).issuer
        fun time' reply' he' => ?_, by simp⟩
      exact h.ended _ latest time' reply' place he'

theorem Paced.step (h : x.Paced) (sound : x.Sound True start) (step : Chain.Step (¬True) x x') :
    x'.Paced := by
  cases step with
  | @tick t later due =>
    refine ⟨h.ended, fun run c pauses reply ht => ?_⟩
    obtain ⟨latest, earlier, attempts, paces⟩ := h.live run c pauses reply ht
    refine ⟨latest, earlier, attempts, ?_⟩
    obtain ⟨due, hd, ahead, le⟩ := (due.resolve_left (by simp)) _ ht
    unfold Task.due? at hd
    split at hd <;> simp_all
    exact paces.tick ahead le
  | @turn task added rest scheduler cache live turn =>
    obtain rfl := sound.no_rest live
    rw [add_zero]
    exact turn.paced h sound (by simp [live])
  | lose _ le =>
    exact ⟨h.ended, fun run c pauses reply ht => h.live _ _ _ _ (Multiset.mem_of_le le ht)⟩
  | shut | drop => exact ⟨h.ended, h.live⟩

theorem Paced.later (h : x.Paced) (sound : x.Sound True start)
    (later : Chain.Later (¬True) x x') : x'.Paced := by
  induction later with
  | refl => exact h
  | tail before step ih => exact ih.step (sound.later before) step

end Chain
end TokenKeeper
