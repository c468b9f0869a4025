import TokenKeeper.Proofs.Chain.Paced
/-! What the calls of an issuer that never holds the worker have come to by a time. A chain of which
nothing has been lost makes the calls that its issuer, its config and its start say, and when it
rests each of them is as far as the time says. -/
namespace TokenKeeper

namespace Config
variable (config : Config) (issuer : Issuer) (start : Instant)

def callAt : Nat → Instant
  | 0 => start
  | k + 1 => ((issuer k).doneAt (callAt k)).afterRest (config.delayAfter (issuer k).reply)

def attemptAt (now : Instant) (k : Nat) : Attempt :=
  let began := config.callAt issuer start k
  let done := (issuer k).doneAt began
  if done ≤ now then ⟨began, some (done, (issuer k).reply), some done⟩ else ⟨began, none, none⟩

theorem doneAt_le_callAt (k : Nat) :
    (issuer k).doneAt (config.callAt issuer start k) ≤ config.callAt issuer start (k + 1) :=
  Instant.le_afterRest _ _

theorem attemptAt_done {now : Instant} {k : Nat}
    (le : (issuer k).doneAt (config.callAt issuer start k) ≤ now) :
    config.attemptAt issuer start now k =
      ⟨config.callAt issuer start k,
        some ((issuer k).doneAt (config.callAt issuer start k), (issuer k).reply),
        some ((issuer k).doneAt (config.callAt issuer start k))⟩ := if_pos le

theorem attemptAt_going {now : Instant} {k : Nat}
    (lt : now < (issuer k).doneAt (config.callAt issuer start k)) :
    config.attemptAt issuer start now k = ⟨config.callAt issuer start k, none, none⟩ :=
  if_neg lt.not_ge

def history (now : Instant) (count : Nat) : List Attempt :=
  (List.range count).map (config.attemptAt issuer start now)

theorem history_succ (now : Instant) (count : Nat) :
    config.history issuer start now (count + 1) =
      config.history issuer start now count ++ [config.attemptAt issuer start now count] := by
  simp [history, List.range_succ]

end Config

/-- Calls, the latest one first, that took as long as the issuer has them and are not still to
come. -/
structure Took (issuer : Issuer) (now : Instant) (attempts : List Attempt) : Prop where
  ended : ∀ (k : Nat) attempt time reply, attempts.reverse[k]? = some attempt →
    attempt.ended = some (time, reply) → time = (issuer k).doneAt attempt.began
  past : ∀ attempt ∈ attempts, ∀ time reply, attempt.ended = some (time, reply) → time ≤ now

theorem Took.tail {issuer : Issuer} {now : Instant} {latest : Attempt} {earlier : List Attempt}
    (h : Took issuer now (latest :: earlier)) : Took issuer now earlier := by
  constructor
  · intro k attempt time reply ha he
    apply h.ended k attempt time reply _ he
    rw [List.reverse_cons, List.getElem?_append_left (List.getElem?_eq_some_iff.mp ha).1, ha]
  · intro attempt member
    exact h.past attempt (List.mem_cons_of_mem _ member)

theorem Timed.history {config : Config} {issuer : Issuer} {start now due : Instant}
    {attempts : List Attempt} (timed : Timed True start config issuer attempts)
    (took : Took issuer now attempts) (next : nextCall? config start attempts = some due) :
    attempts.reverse = config.history issuer start now attempts.length ∧
      due = config.callAt issuer start attempts.length := by
  induction attempts generalizing due with
  | nil =>
    cases next
    exact ⟨rfl, rfl⟩
  | cons latest earlier ih =>
    obtain ⟨⟨began, next', on_time⟩, regular, before⟩ := timed
    obtain ⟨same, rfl⟩ := ih before took.tail next'
    obtain ⟨ended, reply, concluded, he, hc, rfl⟩ := Attempt.nextAt?_some next
    -- In an exact chain neither bound leaves room: the latest call is where it has to be.
    have began := le_antisymm (on_time.late trivial) on_time.early
    have place : (latest :: earlier).reverse[earlier.length]? = some latest := by simp
    have done := took.ended _ latest ended reply place he
    have past := took.past latest List.mem_cons_self ended reply he
    obtain ⟨_, rfl⟩ := regular.ended ended reply he
    obtain ⟨_, _, he', taken⟩ := regular.concluded concluded hc
    cases he.symm.trans he'
    have at_once := le_antisymm (taken.late trivial) taken.early
    rw [began] at done
    have there : latest = config.attemptAt issuer start now earlier.length := by
      rw [config.attemptAt_done issuer start (done ▸ past), ← done]
      cases latest
      simp_all
    constructor
    · rw [List.reverse_cons, same, List.length_cons, config.history_succ, ← there]
    · rw [done]
      rfl

namespace Chain
variable {start : Instant} {x x' : Chain}

/-- Time goes by, or a live run goes on. -/
inductive Move : Chain → Chain → Prop where
  | tick {x t} (later : x.now ≤ t)
      (due : ∀ task ∈ x.live, ∃ due, task.due? = some due ∧ x.now < due ∧ t ≤ due) :
      Move x { x with now := t }
  | turn {x task added rest scheduler cache} (live : x.live = {task} + rest)
      (turn : x.Turn task added scheduler cache) : Move x ⟨x.now, cache, scheduler, added + rest⟩

abbrev Moves : Chain → Chain → Prop := Relation.ReflTransGen Move

theorem Move.step (move : Move x x') : Chain.Step (¬True) x x' := by
  cases move with
  | tick later due => exact .tick later (.inr due)
  | turn live turn => exact .turn live turn

theorem Moves.later (moves : Moves x x') : Chain.Later (¬True) x x' :=
  Relation.ReflTransGen.mono (fun _ _ move => move.step) _ _ moves

/-- A chain of which nothing has been lost, with an issuer that never holds the worker. -/
structure Steady (start : Instant) (x : Chain) : Prop where
  sound : x.Sound True start
  paced : x.Paced
  published : x.Published
  gentle : ∀ k, (x.cache.issuer k).IsGentle
  /-- A call that has not been taken up goes on. -/
  goes : ∀ latest earlier, x.cache.attempts = latest :: earlier → latest.concluded = none →
    x.live ≠ 0

theorem Fresh.steady (fresh : x.Fresh) (gentle : ∀ k, (x.cache.issuer k).IsGentle) :
    x.Steady x.now := by
  refine ⟨fresh.sound, fresh.paced, fresh.published, gentle, ?_⟩
  intro latest earlier attempts
  rw [fresh.attempts] at attempts
  cases attempts

theorem concluded_of_next {due : Instant} (next : x.nextCall? start = some due)
    {latest : Attempt} {earlier : List Attempt} (attempts : x.cache.attempts = latest :: earlier) :
    latest.concluded ≠ none := by
  unfold Chain.nextCall? at next
  rw [attempts] at next
  obtain ⟨_, _, _, -, hc, -⟩ := Attempt.nextAt?_some next
  simp [hc]

namespace Steady

theorem of_step (h : x.Steady start) (step : Chain.Step (¬True) x x')
    (goes : ∀ latest earlier, x'.cache.attempts = latest :: earlier → latest.concluded = none →
      x'.live ≠ 0) : x'.Steady start := by
  refine ⟨h.sound.step step, h.paced.step h.sound step, h.published.step h.sound step, ?_, goes⟩
  rw [step.follows.issuer]
  exact h.gentle

theorem move (h : x.Steady start) (move : Move x x') : x'.Steady start := by
  apply h.of_step move.step
  cases move with
  | tick => exact h.goes
  | @turn task added rest scheduler cache live turn =>
    have stands := h.sound.stands task (by simp [live])
    intro latest earlier attempts going
    -- Only a run that ends leaves nothing, and then no call goes on.
    cases turn with
    | enterDropped begins =>
      obtain ⟨_, next, -⟩ := stands.begins begins
      exact (concluded_of_next next attempts going).elim
    | abandon waits =>
      obtain ⟨_, next, -⟩ := stands.awaits waits
      exact (concluded_of_next next attempts going).elim
    | concludeLast =>
      obtain ⟨_, _, _, attempts', -, hc, -⟩ := stands.concluded h.sound
      obtain ⟨rfl, rfl⟩ := List.cons.inj (attempts.symm.trans attempts')
      rw [hc] at going
      cases going
    | _ => simp

theorem moves (h : x.Steady start) (moves : Moves x x') : x'.Steady start := by
  induction moves with
  | refl => exact h
  | tail _ step ih => exact ih.move step

theorem shut (h : x.Steady start) : { x with scheduler := x.scheduler.letGo }.Steady start :=
  h.of_step .shut h.goes

theorem drop (h : x.Steady start) (off : x.scheduler.isShutDown = true) :
    { x with cache := { x.cache with dropped := true } }.Steady start :=
  h.of_step (.drop off) h.goes

theorem took (h : x.Steady start) : Took x.cache.issuer x.now x.cache.attempts := by
  constructor
  · intro k attempt time reply ha he
    have on_time := h.paced.ended k attempt time reply ha he
    exact le_antisymm on_time.early (on_time.late (h.gentle k))
  · intro attempt member time reply he
    exact (h.sound.past attempt member).2 time reply he

theorem began (h : x.Steady start) {k : Nat} {call : Attempt} (hc : x.cache.calls[k]? = some call) :
    call.began = x.cache.config.callAt x.cache.issuer start k := by
  have timed := h.sound.timed
  have took := h.took
  unfold Cache.calls at hc
  generalize x.cache.attempts = attempts at timed took hc
  induction attempts with
  | nil => simp at hc
  | cons latest earlier ih =>
    obtain ⟨⟨due, next, on_time⟩, -, before⟩ := timed
    rw [List.reverse_cons] at hc
    obtain old | ⟨place, rfl⟩ := getElem?_concat_cases hc
    · exact ih before took.tail old
    · obtain ⟨-, rfl⟩ := before.history took.tail next
      rw [place, List.length_reverse]
      exact le_antisymm (on_time.late trivial) on_time.early

theorem callAt_le_now (h : x.Steady start) {k : Nat} (lt : k < x.cache.attempts.length) :
    x.cache.config.callAt x.cache.issuer start k ≤ x.now := by
  have place : k < x.cache.calls.length := by simpa [Cache.calls] using lt
  rw [← h.began (List.getElem?_eq_getElem place)]
  apply (h.sound.past _ _).1
  simp [Cache.calls]

end Steady

def AtRest (x : Chain) : Prop := ∀ task ∈ x.live, task.Rests x.now

theorem Steady.now_lt_doneAt (h : x.Steady start) {run : RunId} {c : CacheId}
    {pauses : List Pause} {reply : Reply} (member : .call run c pauses reply ∈ x.live)
    (rests : (Task.call run c pauses reply).Rests x.now) {latest : Attempt}
    {earlier : List Attempt} (attempts : x.cache.attempts = latest :: earlier) :
    x.now < (x.cache.issuer earlier.length).doneAt latest.began := by
  obtain ⟨due, ahead, resting | ⟨_, waits⟩⟩ := rests
  · obtain ⟨_, _, attempts', paces⟩ := h.paced.live _ _ _ _ member
    obtain ⟨rfl, rfl⟩ := List.cons.inj (attempts.symm.trans attempts')
    apply ahead.trans_le
    apply le_trans _ paces.done.early
    exact Task.le_doneAt_of_due resting (x.cache.issuer 0) (k := run.place) rfl x.now
  · cases waits

theorem Steady.history (h : x.Steady start) (rest : x.AtRest) :
    x.cache.calls =
      x.cache.config.history x.cache.issuer start x.now x.cache.attempts.length := by
  have timed := h.sound.timed
  have took := h.took
  unfold Cache.calls
  cases attempts : x.cache.attempts with
  | nil => rfl
  | cons latest earlier =>
    rw [attempts] at timed took
    obtain ⟨⟨due, next, on_time⟩, -, before⟩ := id timed
    obtain ⟨same, rfl⟩ := before.history took.tail next
    have began := le_antisymm (on_time.late trivial) on_time.early
    cases going : latest.concluded with
    | some concluded =>
      obtain ⟨ended, reply, he, -⟩ := timed.2.1.concluded concluded going
      have due : TokenKeeper.nextCall? x.cache.config start (latest :: earlier) =
          some (ended.afterRest (x.cache.config.delayAfter reply)) := by
        simp [TokenKeeper.nextCall?, Attempt.nextAt?, going, he]
      exact (timed.history took due).1
    | none =>
      obtain ⟨task, member⟩ := Multiset.exists_mem_of_ne_zero (h.goes latest earlier attempts going)
      have stands := h.sound.stands task member
      have rests := rest task member
      have there : latest =
          x.cache.config.attemptAt x.cache.issuer start x.now earlier.length := by
        cases stands with
        | begin next | fetch next => exact (concluded_of_next next attempts going).elim
        | pending next => exact (concluded_of_next next attempts going).elim
        | delayed attempts' _ hc =>
          obtain ⟨rfl, rfl⟩ := List.cons.inj (attempts.symm.trans attempts')
          rw [hc] at going
          cases going
        | call attempts' he hc =>
          obtain ⟨rfl, rfl⟩ := List.cons.inj (attempts.symm.trans attempts')
          have ahead := h.now_lt_doneAt member rests attempts
          rw [began] at ahead
          rw [x.cache.config.attemptAt_going x.cache.issuer start ahead, ← began]
          cases latest
          simp_all
        | conclude =>
          obtain ⟨_, -, resting | ⟨_, waits⟩⟩ := rests
          · cases resting
          · cases waits
      rw [List.reverse_cons, same, List.length_cons, Config.history_succ, ← there]

theorem Steady.now_lt_callAt (h : x.Steady start) (rest : x.AtRest)
    (on : x.scheduler.isShutDown = false) :
    x.now < x.cache.config.callAt x.cache.issuer start x.cache.attempts.length := by
  obtain ⟨task, alone⟩ := Multiset.card_eq_one.mp (h.sound.alive on)
  have member : task ∈ x.live := by simp [alone]
  have stands := h.sound.stands task member
  have rests := rest task member
  have waiting {submission : Submission} {due : Instant}
      (waits : task.awaits? x.now = some (submission, due)) (ahead : x.now < due) :
      x.now < x.cache.config.callAt x.cache.issuer start x.cache.attempts.length := by
    obtain ⟨next, hn, on_time, -⟩ := stands.awaits waits
    obtain ⟨-, rfl⟩ := h.sound.timed.history h.took hn
    exact ahead.trans_le (on_time.late trivial)
  obtain ⟨due, ahead, resting | ⟨_, waits⟩⟩ := id rests
  · cases stands with
    | pending =>
      cases resting
      exact waiting rfl ahead
    | @call run c pauses latest earlier attempts =>
      have place : x.cache.calls[earlier.length]? = some latest := by simp [Cache.calls, attempts]
      have ahead := h.now_lt_doneAt member rests attempts
      rw [h.began place] at ahead
      rw [attempts]
      exact ahead.trans_le (x.cache.config.doneAt_le_callAt x.cache.issuer start earlier.length)
    | _ => cases resting
  · exact waiting waits ahead

end Chain
end TokenKeeper
