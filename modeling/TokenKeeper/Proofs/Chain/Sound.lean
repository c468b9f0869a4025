import TokenKeeper.Proofs.Chain.Birth
/-! What holds along every chain: one run is alive as long as the cache is open, and each call of
the issuer begins when the delay after the call before it is over. In an exact chain it begins right
then. -/
namespace TokenKeeper

/-- No earlier than it is due, and in an exact chain no later. -/
structure OnTime (exact : Prop) (due time : Instant) : Prop where
  early : due ≤ time
  late : exact → time ≤ due

theorem OnTime.afterRest {exact : Prop} {due time : Instant} (h : OnTime exact due time)
    (delay : Span) : OnTime exact (due.afterRest delay) (time.afterRest delay) :=
  ⟨Nat.add_le_add_right h.early _, fun is => Nat.add_le_add_right (h.late is) _⟩

theorem Instant.le_afterRest (t : Instant) (length : Span) : t ≤ t.afterRest length :=
  Nat.le_add_right _ _

namespace Attempt

def nextAt? (config : Config) (attempt : Attempt) : Option Instant :=
  match attempt.concluded, attempt.ended with
  | some _, some (time, reply) => some (time.afterRest (config.delayAfter reply))
  | _, _ => none

theorem nextAt?_some {config : Config} {attempt : Attempt} {due : Instant}
    (h : attempt.nextAt? config = some due) :
    ∃ ended reply concluded, attempt.ended = some (ended, reply) ∧
      attempt.concluded = some concluded ∧ due = ended.afterRest (config.delayAfter reply) := by
  unfold nextAt? at h
  split at h
  · rename_i concluded ended reply hc he
    cases h
    exact ⟨ended, reply, concluded, he, hc, rfl⟩
  · cases h

/-- A call that ends as the issuer has it, and is taken up after that. -/
structure Regular (exact : Prop) (call : Call) (attempt : Attempt) : Prop where
  ended : ∀ time reply, attempt.ended = some (time, reply) →
    attempt.began ≤ time ∧ reply = call.reply
  concluded : ∀ time, attempt.concluded = some time →
    ∃ ended reply, attempt.ended = some (ended, reply) ∧ OnTime exact ended time

end Attempt

def nextCall? (config : Config) (start : Instant) : List Attempt → Option Instant
  | [] => some start
  | attempt :: _ => attempt.nextAt? config

/-- Calls, the latest one first, each of which began when it was due. -/
def Timed (exact : Prop) (start : Instant) (config : Config) (issuer : Issuer) :
    List Attempt → Prop
  | [] => True
  | attempt :: earlier =>
    (∃ due, nextCall? config start earlier = some due ∧ OnTime exact due attempt.began) ∧
      attempt.Regular exact (issuer earlier.length) ∧ Timed exact start config issuer earlier

/-- Each call ends as the issuer has it, and is taken up after that. -/
theorem Timed.regular {exact : Prop} {start : Instant} {config : Config} {issuer : Issuer}
    {attempts : List Attempt} (h : Timed exact start config issuer attempts) {k : Nat}
    {attempt : Attempt} (ha : attempts.reverse[k]? = some attempt) :
    attempt.Regular exact (issuer k) := by
  induction attempts with
  | nil => simp at ha
  | cons latest earlier ih =>
    obtain ⟨-, regular, timed⟩ := h
    rw [List.reverse_cons] at ha
    rcases getElem?_concat_cases ha with old | ⟨rfl, rfl⟩
    · exact ih timed old
    · rwa [List.length_reverse]

namespace Chain

def nextCall? (x : Chain) (start : Instant) : Option Instant :=
  TokenKeeper.nextCall? x.cache.config start x.cache.attempts

/-- What is known of a live run by the task that it is at. -/
inductive Stands (exact : Prop) (start : Instant) (x : Chain) : Task → Prop where
  | begin {submission due} (next : x.nextCall? start = some due)
      (time : OnTime exact due x.now) : Stands exact start x (.begin submission)
  | delayed {submission delay attempt earlier ended reply concluded}
      (attempts : x.cache.attempts = attempt :: earlier)
      (he : attempt.ended = some (ended, reply)) (hc : attempt.concluded = some concluded)
      (hd : delay = x.cache.config.delayAfter reply) (time : OnTime exact ended x.now) :
      Stands exact start x (.delayed submission delay)
  | pending {submission next due} (hn : x.nextCall? start = some next)
      (time : OnTime exact next due) (ahead : exact → x.now ≤ due) :
      Stands exact start x (.pending submission due)
  | fetch {run c due} (next : x.nextCall? start = some due) (time : OnTime exact due x.now) :
      Stands exact start x (.fetch run c)
  | call {run c pauses attempt earlier} (attempts : x.cache.attempts = attempt :: earlier)
      (he : attempt.ended = none) (hc : attempt.concluded = none) :
      Stands exact start x (.call run c pauses (x.cache.issuer earlier.length).reply)
  | conclude {run c attempt earlier ended reply} (attempts : x.cache.attempts = attempt :: earlier)
      (he : attempt.ended = some (ended, reply)) (hc : attempt.concluded = none)
      (time : OnTime exact ended x.now) : Stands exact start x (.conclude run c reply)

structure Sound (exact : Prop) (start : Instant) (x : Chain) : Prop where
  sole : x.live.card ≤ 1
  alive : x.scheduler.isShutDown = false → x.live.card = 1
  dropped : x.cache.dropped = true → x.scheduler.isShutDown = true
  stands : ∀ task ∈ x.live, Stands exact start x task
  timed : Timed exact start x.cache.config x.cache.issuer x.cache.attempts
  past : ∀ attempt ∈ x.cache.attempts, attempt.began ≤ x.now ∧
    ∀ time reply, attempt.ended = some (time, reply) → time ≤ x.now

variable {exact : Prop} {start : Instant} {x x' : Chain}

theorem Sound.no_rest (h : x.Sound exact start) {task : Task} {rest : Multiset Task}
    (live : x.live = {task} + rest) : rest = 0 := by
  have card := h.sole
  rw [live, Multiset.card_add, Multiset.card_singleton] at card
  exact Multiset.card_eq_zero.mp (by omega)

theorem Sound.live_eq (h : x.Sound exact start) {task : Task} (ht : task ∈ x.live) :
    x.live = {task} := by
  obtain ⟨rest, split⟩ := Multiset.exists_cons_of_mem ht
  rw [← Multiset.singleton_add] at split
  rw [split, h.no_rest split, add_zero]

theorem Fresh.sound (fresh : x.Fresh) : x.Sound exact x.now := by
  obtain ⟨submission, live⟩ := fresh.live
  refine ⟨?_, fun _ => ?_, fun gone => ?_, fun task ht => ?_, ?_, ?_⟩
  · rw [live, Multiset.card_singleton]
  · rw [live, Multiset.card_singleton]
  · rw [fresh.dropped] at gone
    cases gone
  · rw [live] at ht
    rw [Multiset.mem_singleton.mp ht]
    have now_due : x.nextCall? x.now = some x.now := by
      rw [nextCall?, fresh.attempts]
      rfl
    exact .begin now_due ⟨le_rfl, fun _ => le_rfl⟩
  · rw [fresh.attempts]
    trivial
  · rw [fresh.attempts]
    nofun

/-- When a run that waits is due, and that no exact chain lets it wait longer. -/
theorem Stands.awaits {task : Task} (h : Stands exact start x task) {submission : Submission}
    {due : Instant} (waits : task.awaits? x.now = some (submission, due)) :
    ∃ next, x.nextCall? start = some next ∧ OnTime exact next due ∧ (exact → x.now ≤ due) := by
  cases h with
  | delayed attempts he hc hd time =>
    cases waits
    subst hd
    refine ⟨_, ?_, time.afterRest _, fun _ => x.now.le_afterRest _⟩
    simp only [nextCall?, attempts, TokenKeeper.nextCall?, Attempt.nextAt?, he, hc]
  | pending hn time ahead =>
    cases waits
    exact ⟨_, hn, time, ahead⟩
  | _ => cases waits

theorem Stands.begins {task : Task} (h : Stands exact start x task) {off : Bool}
    {submission : Submission} (begins : task.Begins x.now off submission) :
    ∃ next, x.nextCall? start = some next ∧ OnTime exact next x.now := by
  cases begins with
  | atOnce =>
    obtain ⟨next, time⟩ := h
    exact ⟨_, next, time⟩
  | waited waits _ lapsed =>
    obtain ⟨next, hn, time, ahead⟩ := h.awaits waits
    exact ⟨next, hn, time.early.trans lapsed, fun is => (ahead is).trans (time.late is)⟩

theorem Stands.congr {task : Task} (h : Stands exact start x task) (now : x'.now = x.now)
    (config : x'.cache.config = x.cache.config) (issuer : x'.cache.issuer = x.cache.issuer)
    (attempts : x'.cache.attempts = x.cache.attempts) : Stands exact start x' task := by
  have next : x'.nextCall? start = x.nextCall? start := by
    unfold nextCall?
    rw [config, attempts]
  cases h with
  | begin hn time => exact .begin (next.trans hn) (now ▸ time)
  | delayed same he hc hd time =>
    exact .delayed (attempts.trans same) he hc (config ▸ hd) (now ▸ time)
  | pending hn time ahead => exact .pending (next.trans hn) time (now ▸ ahead)
  | fetch hn time => exact .fetch (next.trans hn) (now ▸ time)
  | call same he hc => exact issuer ▸ .call (attempts.trans same) he hc
  | conclude same he hc time => exact .conclude (attempts.trans same) he hc (now ▸ time)

/-- Time goes by without harm, since in an exact chain it stops when the run is due. -/
theorem Stands.tick {task : Task} (h : Stands exact start x task) {t : Instant}
    (later : x.now ≤ t)
    (due : ¬exact ∨ ∃ due, task.due? = some due ∧ x.now < due ∧ t ≤ due) :
    Stands exact start { x with now := t } task := by
  have on_time {next : Instant} (time : OnTime exact next x.now) (none_due : task.due? = none) :
      OnTime exact next t := by
    refine ⟨time.early.trans later, fun is => ?_⟩
    obtain never | ⟨_, hd, -⟩ := due
    · exact absurd is never
    · rw [none_due] at hd
      cases hd
  cases h with
  | begin next time => exact .begin next (on_time time rfl)
  | delayed attempts he hc hd time => exact .delayed attempts he hc hd (on_time time rfl)
  | pending hn time ahead =>
    refine .pending hn time fun is => ?_
    obtain never | ⟨_, hd, -, le⟩ := due
    · exact absurd is never
    · cases hd
      exact le
  | fetch next time => exact .fetch next (on_time time rfl)
  | call attempts he hc => exact .call attempts he hc
  | conclude attempts he hc time => exact .conclude attempts he hc (on_time time rfl)

theorem onLatest_attempts {cache : Cache} {attempt : Attempt} {earlier : List Attempt}
    (h : cache.attempts = attempt :: earlier) (f : Attempt → Attempt) :
    (cache.onLatest f).attempts = f attempt :: earlier := by
  unfold Cache.onLatest
  rw [h]
  rfl

theorem conclude_attempts {cache : Cache} {attempt : Attempt} {earlier : List Attempt}
    (h : cache.attempts = attempt :: earlier) (config : Config) (reply : Reply) (now : Instant) :
    (cache.conclude config reply now).attempts =
      { attempt with concluded := some now } :: earlier := by
  refine onLatest_attempts ?_ _
  unfold Cache.takeUp
  split <;> exact h

theorem Stands.concluded {run : RunId} {c : CacheId} {reply : Reply}
    (stands : Stands exact start x (.conclude run c reply)) (h : x.Sound exact start) :
    let cache := x.cache.conclude x.cache.config reply x.now
    ∃ attempt earlier ended, cache.attempts = attempt :: earlier ∧
      attempt.ended = some (ended, reply) ∧ attempt.concluded = some x.now ∧
      OnTime exact ended x.now ∧ Timed exact start cache.config cache.issuer cache.attempts ∧
      ∀ attempt ∈ cache.attempts, attempt.began ≤ x.now ∧
        ∀ time reply, attempt.ended = some (time, reply) → time ≤ x.now := by
  cases stands with
  | @conclude _ _ attempt earlier ended _ attempts he hc time =>
    have timed := h.timed
    have past := h.past
    rw [attempts] at timed past
    obtain ⟨due, regular, before⟩ := timed
    have after := conclude_attempts attempts x.cache.config reply x.now
    have follows := Cache.Follows.conclude x.cache x.cache.config reply x.now
    dsimp only
    rw [after, follows.config, follows.issuer]
    refine ⟨_, _, ended, rfl, he, rfl, time, ⟨due, ⟨regular.ended, fun concluded hc => ?_⟩, before⟩,
      fun attempt' ha => ?_⟩
    · cases hc
      exact ⟨ended, reply, he, time⟩
    · obtain rfl | old := List.mem_cons.mp ha
      · exact past attempt List.mem_cons_self
      · exact past attempt' (List.mem_cons_of_mem _ old)

structure Turn.Leaves (exact : Prop) (start : Instant) (x : Chain) (added : Multiset Task)
    (cache : Cache) : Prop where
  stands : ∀ scheduler live, ∀ task ∈ added, Stands exact start ⟨x.now, cache, scheduler, live⟩ task
  timed : Timed exact start cache.config cache.issuer cache.attempts
  past : ∀ attempt ∈ cache.attempts, attempt.began ≤ x.now ∧
    ∀ time reply, attempt.ended = some (time, reply) → time ≤ x.now

theorem Turn.leaves {task : Task} {added : Multiset Task} {scheduler : Scheduler} {cache : Cache}
    (turn : x.Turn task added scheduler cache) (h : x.Sound exact start)
    (stands : Stands exact start x task) : Turn.Leaves exact start x added cache := by
  have single {cache : Cache} {next : Task}
      (h : ∀ scheduler live, Stands exact start ⟨x.now, cache, scheduler, live⟩ next) :
      ∀ scheduler live, ∀ task ∈ ({next} : Multiset Task),
        Stands exact start ⟨x.now, cache, scheduler, live⟩ task :=
    fun scheduler live task ht => Multiset.mem_singleton.mp ht ▸ h scheduler live
  cases turn with
  | enter begins =>
    obtain ⟨next, hn, time⟩ := stands.begins begins
    exact ⟨single fun _ _ => .fetch hn time, h.timed, h.past⟩
  | enterDropped | abandon => exact ⟨nofun, h.timed, h.past⟩
  | wait waits =>
    obtain ⟨next, hn, time, ahead⟩ := stands.awaits waits
    exact ⟨single fun _ _ => .pending hn time ahead, h.timed, h.past⟩
  | call =>
    cases stands with
    | fetch next time =>
      refine ⟨single fun _ _ => .call rfl rfl rfl, ⟨⟨_, next, time⟩, ⟨nofun, nofun⟩, h.timed⟩,
        fun attempt ha => ?_⟩
      obtain rfl | old := List.mem_cons.mp ha
      · exact ⟨le_rfl, nofun⟩
      · exact h.past attempt old
  | pause | resume =>
    cases stands with
    | call attempts he hc =>
      exact ⟨single fun _ _ => .call attempts he hc, h.timed, h.past⟩
  | endCall =>
    cases stands with
    | @call _ _ _ attempt earlier attempts he hc =>
      have timed := h.timed
      have past := h.past
      rw [attempts] at timed past
      obtain ⟨due, regular, before⟩ := timed
      have began := (past attempt List.mem_cons_self).1
      have after := onLatest_attempts attempts fun attempt =>
        { attempt with ended := some (x.now, (x.cache.issuer earlier.length).reply) }
      refine ⟨single fun _ _ => .conclude after rfl hc ⟨le_rfl, fun _ => le_rfl⟩, ?_, ?_⟩
      · unfold Cache.endCall
        rw [after]
        refine ⟨due, ⟨fun time reply ended => ?_, fun time concluded => ?_⟩, before⟩
        · cases ended
          exact ⟨began, rfl⟩
        · rw [hc] at concluded
          cases concluded
      · unfold Cache.endCall
        rw [after]
        intro attempt ha
        obtain rfl | old := List.mem_cons.mp ha
        · refine ⟨began, fun time reply ended => ?_⟩
          cases ended
          exact le_rfl
        · exact past attempt (List.mem_cons_of_mem _ old)
  | conclude =>
    obtain ⟨attempt, earlier, ended, attempts, he, hc, time, timed, past⟩ := stands.concluded h
    have follows := Cache.Follows.conclude x.cache x.cache.config
    exact ⟨single fun _ _ => .delayed attempts he hc (by rw [(follows _ _).config]) time, timed,
      past⟩
  | concludeLast =>
    obtain ⟨attempt, earlier, ended, attempts, he, hc, time, timed, past⟩ := stands.concluded h
    exact ⟨nofun, timed, past⟩

/-- A turn puts one run in the place of another, unless the cache has been closed. -/
theorem Turn.card {task : Task} {added : Multiset Task} {scheduler : Scheduler} {cache : Cache}
    (turn : x.Turn task added scheduler cache) : added.card ≤ 1 ∧ (x.scheduler.isShutDown = false →
      (x.cache.dropped = true → x.scheduler.isShutDown = true) → added.card = 1) := by
  cases turn with
  | enterDropped _ dropped =>
    refine ⟨Nat.zero_le _, fun on kept => ?_⟩
    rw [kept dropped] at on
    cases on
  | abandon _ off | concludeLast off =>
    refine ⟨Nat.zero_le _, fun on => ?_⟩
    rw [off] at on
    cases on
  | _ => exact ⟨le_rfl, fun _ _ => rfl⟩

theorem Turn.dropped {task : Task} {added : Multiset Task} {scheduler : Scheduler} {cache : Cache}
    (turn : x.Turn task added scheduler cache) : cache.dropped = x.cache.dropped := by
  cases turn with
  | conclude | concludeLast =>
    unfold Cache.conclude Cache.takeUp
    split <;> rfl
  | _ => rfl

/-- Every step of an exact chain, or of any other, keeps what holds of it. -/
theorem Sound.step (h : x.Sound exact start) (step : Chain.Step (¬exact) x x') :
    x'.Sound exact start := by
  cases step with
  | tick later due =>
    refine ⟨h.sole, h.alive, h.dropped, fun task ht => (h.stands task ht).tick later ?_, h.timed,
      fun attempt ha => ?_⟩
    · exact due.imp_right fun due => due task ht
    · obtain ⟨began, ended⟩ := h.past attempt ha
      exact ⟨began.trans later, fun time reply he => (ended time reply he).trans later⟩
  | @turn task added rest scheduler cache live turn =>
    obtain rfl := h.no_rest live
    rw [add_zero] at live ⊢
    obtain ⟨stands, timed, past⟩ := turn.leaves h (h.stands task (by rw [live]; simp))
    obtain ⟨sole, alive⟩ := turn.card
    refine ⟨sole, fun on => alive (turn.isShutDown ▸ on) h.dropped, fun gone => ?_,
      stands scheduler added, timed, past⟩
    rw [turn.isShutDown]
    exact h.dropped (turn.dropped ▸ gone)
  | lose off le =>
    refine ⟨(Multiset.card_le_card le).trans h.sole, fun on => ?_, h.dropped,
      fun task ht => (h.stands task (Multiset.mem_of_le le ht)).congr rfl rfl rfl rfl, h.timed,
      h.past⟩
    rw [off] at on
    cases on
  | shut =>
    exact ⟨h.sole, nofun, fun _ => rfl, fun task ht => (h.stands task ht).congr rfl rfl rfl rfl,
      h.timed, h.past⟩
  | drop off =>
    exact ⟨h.sole, h.alive, fun _ => off, fun task ht => (h.stands task ht).congr rfl rfl rfl rfl,
      h.timed, h.past⟩

theorem Sound.later (h : x.Sound exact start) (later : Chain.Later (¬exact) x x') :
    x'.Sound exact start := by
  induction later with
  | refl => exact h
  | tail _ step ih => exact ih.step step

end Chain

/-- What the world shows of a cache is sound. -/
theorem World.Shows.sound {w : World} {c : CacheId} {x : Chain} (shows : w.Shows c x)
    (h : w.Reachable) : ∃ start, x.Sound False start := by
  obtain ⟨first, fresh, later⟩ := shows.history h
  exact ⟨first.now, fresh.sound.later (later.mono fun _ => id)⟩

end TokenKeeper
