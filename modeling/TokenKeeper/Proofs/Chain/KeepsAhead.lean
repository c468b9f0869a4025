import TokenKeeper.Proofs.Chain.Calm
import TokenKeeper.Proofs.Chain.Paced
/-! A cache on a worker that nothing holds keeps ahead of expiry, as long as its issuer does: nobody
ever sees an expired token, and a stale one only while a new one is being loaded. -/
namespace TokenKeeper

/-- Every call brings a usable token, and the call after it, which begins when that token is to be
refreshed, is over before the token expires. -/
def Config.KeepsAhead (config : Config) (issuer : Issuer) : Prop :=
  ∀ k, ∃ token lifetime duration, (issuer k).reply.token = .ok (token, lifetime) ∧
    (∀ t, (issuer (k + 1)).doneAt t ≤ t + duration) ∧
    config.refreshDelay lifetime + duration ≤ Span.ofSecs lifetime.toNat

/-- The token has not expired, and if it is stale the call is still in progress that began when the
token was to be refreshed. No refresh is put off for longer than the longest rest. -/
structure Cache.Covers (cache : Cache) (issued : Issued) (now : Instant) : Prop where
  valid : issued.statusAt now ≠ .expired
  stale : issued.statusAt now = .stale → ∃ call, cache.calls.getLast? = some call ∧
    call.ended = none ∧ call.began = issued.received.afterRest issued.refreshDelay ∧
      (issued.refreshDelay ≤ Span.longestRest → now < Instant.limit →
        issued.refreshAt = some call.began)

namespace Issued
variable {issued : Issued} {now : Instant}

theorem statusAt_ne_expired (past : issued.received ≤ now)
    (h : now < issued.received + issued.lifetime) : issued.statusAt now ≠ .expired := by
  have young : ¬issued.lifetime ≤ issued.age now := by
    unfold age Instant.since
    unfold Instant Span at *
    omega
  unfold statusAt
  rw [if_neg young]
  split <;> simp

theorem statusAt_ne_stale (past : issued.received ≤ now)
    (h : now < issued.received + issued.refreshDelay) : issued.statusAt now ≠ .stale := by
  have young : ¬issued.refreshDelay ≤ issued.age now := by
    unfold age Instant.since
    unfold Instant Span at *
    omega
  unfold statusAt
  rw [if_neg young]
  split <;> simp

end Issued

theorem Instant.afterRest_le (t : Instant) (length : Span) : t.afterRest length ≤ t + length :=
  Nat.add_le_add_left (Nat.min_le_left _ _) t

theorem Cache.last_publication {cache : Cache} {newer earlier : List Attempt} {call : Attempt}
    {issued : Issued} (attempts : cache.attempts = newer ++ call :: earlier)
    (brought : call.issued? cache.config = some issued)
    (unconcluded : ∀ after ∈ newer, after.concluded = none) :
    cache.publications.getLast? = some issued := by
  have nothing : newer.reverse.filterMap (·.issued? cache.config) = [] := by
    apply List.filterMap_eq_nil_iff.mpr
    intro after member
    exact Attempt.issued?_none (unconcluded after (List.mem_reverse.mp member))
  rw [publications, calls, attempts, List.reverse_append, List.filterMap_append, nothing,
    List.append_nil, List.reverse_cons, List.filterMap_append]
  simp [brought]

namespace Chain
variable {start : Instant} {x : Chain} {issued : Issued}

structure Brought (x : Chain) (k : Nat) (call : Attempt) (issued : Issued) : Prop where
  current : x.cache.current = some issued
  ended : call.ended = some (issued.received, (x.cache.issuer k).reply)
  delay : x.cache.config.delayAfter (x.cache.issuer k).reply = issued.refreshDelay
  covers : ∃ duration, (∀ t, (x.cache.issuer (k + 1)).doneAt t ≤ t + duration) ∧
    issued.refreshDelay + duration ≤ issued.lifetime

/-- What is shown is what the last call brought that has been taken up. -/
theorem Sound.brought (h : x.Sound True start) (published : x.Published)
    (ahead : x.cache.config.KeepsAhead x.cache.issuer) {newer earlier : List Attempt}
    {call : Attempt} (attempts : x.cache.attempts = newer ++ call :: earlier) {concluded : Instant}
    (hc : call.concluded = some concluded)
    (unconcluded : ∀ after ∈ newer, after.concluded = none) :
    ∃ issued, x.Brought earlier.length call issued := by
  have place : x.cache.calls[earlier.length]? = some call := by simp [Cache.calls, attempts]
  have regular := h.timed.regular place
  obtain ⟨ended, reply, he, taken⟩ := regular.concluded concluded hc
  obtain rfl : ended = concluded := le_antisymm taken.early (taken.late trivial)
  obtain rfl := (regular.ended ended reply he).2
  obtain ⟨token, lifetime, duration, usable, covers⟩ := ahead earlier.length
  have brought := Attempt.issued?_ok x.cache.config he hc usable
  refine ⟨x.cache.config.issue token lifetime ended, ?_, he, ?_, duration, covers⟩
  · rw [published.current, Cache.last_publication attempts brought unconcluded]
  · exact x.cache.config.delayAfter_ok usable

/-- As long as the next run waits, the token is fresh. -/
theorem Sound.covers_waiting (h : x.Sound True start) (published : x.Published)
    (ahead : x.cache.config.KeepsAhead x.cache.issuer) (current : x.cache.current = some issued)
    {next : Instant} (hn : x.nextCall? start = some next) (lt : x.now < next) :
    x.cache.Covers issued x.now := by
  unfold Chain.nextCall? TokenKeeper.nextCall? at hn
  split at hn
  · rename_i attempts
    rw [published.current, Cache.publications, Cache.calls, attempts] at current
    cases current
  · rename_i latest earlier attempts
    obtain ⟨ended, reply, concluded, he, hc, rfl⟩ := Attempt.nextAt?_some hn
    have last : x.cache.attempts = [] ++ latest :: earlier := attempts
    obtain ⟨issued', brought⟩ := h.brought published ahead last hc (by simp)
    obtain rfl := Option.some.inj (brought.current.symm.trans current)
    rw [brought.ended, Option.some.injEq, Prod.mk.injEq] at he
    obtain ⟨rfl, rfl⟩ := he
    rw [brought.delay] at lt
    obtain ⟨duration, -, covers⟩ := brought.covers
    have past : issued'.received ≤ x.now :=
      (h.past latest (by simp [attempts])).2 _ _ brought.ended
    have fresh := lt.trans_le (issued'.received.afterRest_le issued'.refreshDelay)
    constructor
    · apply Issued.statusAt_ne_expired past
      unfold Instant Span at *
      omega
    · intro stale
      exact absurd stale (Issued.statusAt_ne_stale past fresh)

/-- As long as a call goes on that is not over yet, the token is valid. -/
theorem Sound.covers_calling (h : x.Sound True start) (published : x.Published)
    (ahead : x.cache.config.KeepsAhead x.cache.issuer) (current : x.cache.current = some issued)
    {latest : Attempt} {earlier : List Attempt} (attempts : x.cache.attempts = latest :: earlier)
    (he : latest.ended = none) (hc : latest.concluded = none)
    (lt : x.now < (x.cache.issuer earlier.length).doneAt latest.began) :
    x.cache.Covers issued x.now := by
  cases earlier with
  | nil =>
    rw [published.current, Cache.publications_cons attempts, Attempt.issued?_none hc] at current
    cases current
  | cons older rest =>
    have place : x.cache.calls[rest.length]? = some older := by simp [Cache.calls, attempts]
    have last : x.cache.calls[rest.length + 1]? = some latest := by simp [Cache.calls, attempts]
    obtain ⟨_, _, concluded, he', hc', -, -, on_time⟩ := h.timed.consecutive place last
    have before : x.cache.attempts = [latest] ++ older :: rest := attempts
    obtain ⟨issued', brought⟩ := h.brought published ahead before hc' (by simp [hc])
    obtain rfl := Option.some.inj (brought.current.symm.trans current)
    rw [brought.ended, Option.some.injEq, Prod.mk.injEq] at he'
    obtain ⟨rfl, rfl⟩ := he'
    rw [brought.delay] at on_time
    have began := le_antisymm (on_time.late trivial) on_time.early
    obtain ⟨duration, takes, covers⟩ := brought.covers
    have past : issued'.received ≤ x.now :=
      (h.past older (by simp [attempts])).2 _ _ brought.ended
    have least := issued'.received.afterRest_le issued'.refreshDelay
    have ends := takes latest.began
    constructor
    · apply Issued.statusAt_ne_expired past
      rw [List.length_cons] at lt
      unfold Instant Span at *
      omega
    · intro stale
      refine ⟨latest, by simp [Cache.calls, attempts], he, began, fun short inside => ?_⟩
      rw [Instant.afterRest, Nat.min_eq_left short] at began
      have within := (h.past latest (by simp [attempts])).1.trans_lt inside
      rw [began] at within ⊢
      exact if_pos within

/-- When the live run rests, the token that is shown covers the present. -/
theorem Sound.covers (h : x.Sound True start) (paced : x.Paced) (published : x.Published)
    (on : x.scheduler.isShutDown = false) (ahead : x.cache.config.KeepsAhead x.cache.issuer)
    (rests : ∀ task ∈ x.live, task.Rests x.now) (current : x.cache.current = some issued) :
    x.cache.Covers issued x.now := by
  obtain ⟨task, alone⟩ := Multiset.card_eq_one.mp (h.alive on)
  have member : task ∈ x.live := by simp [alone]
  obtain ⟨due, lt, kind⟩ := rests task member
  have waiting {submission : Submission} (waits : task.awaits? x.now = some (submission, due)) :
      x.cache.Covers issued x.now := by
    obtain ⟨next, hn, time, -⟩ := (h.stands task member).awaits waits
    apply h.covers_waiting published ahead current hn
    exact lt.trans_le (time.late trivial)
  obtain resting | ⟨submission, waits⟩ := kind
  · cases h.stands task member with
    | @pending submission =>
      cases resting
      exact waiting (show _ = some (submission, due) from rfl)
    | @call run c pauses _ _ attempts he hc =>
      apply h.covers_calling published ahead current attempts he hc
      obtain ⟨_, _, attempts', paces⟩ := paced.live _ _ _ _ member
      obtain ⟨rfl, rfl⟩ := List.cons.inj (attempts.symm.trans attempts')
      apply lt.trans_le
      apply le_trans _ paces.done.early
      exact Task.le_doneAt_of_due resting (x.cache.issuer 0) (k := run.place) rfl x.now
    | _ => cases resting
  · exact waiting waits

end Chain

namespace World
variable {w w' : World} {c : CacheId} {p : PoolId} {x : Chain}

theorem Calm.later (calm : w.Calm x.cache.scheduler) (h : w.Sound) (shows : w.Shows c x)
    (later : Later w w') (now : w'.now = w.now) : w'.Calm x.cache.scheduler := by
  induction later with
  | refl => exact calm
  | @tail middle last before step ih =>
    have sound := h.later before
    have first := Later.now_le h before
    have second := Later.now_le sound (.single step)
    have still : middle.now = w.now := le_antisymm (second.trans now.le) first
    obtain ⟨x', shows', later'⟩ := shows.later h before
    have same := (Chain.Later.follows later').scheduler
    have calm' := ih still
    rw [← same] at calm' ⊢
    exact (calm'.happens sound shows' (step.happens sound) (now.trans still.symm)).1

/-- A run of an open cache whose worker nothing holds, up to a moment at which somebody may look:
workers go before readers and before whoever waits outside, so when the clock came to the moment
they went on until none had anything to do. -/
def Watched (c : CacheId) (p : PoolId) (w w' : World) : Prop :=
  ∃ still, LaterUndisturbed c p w still ∧
    (∀ pool ∈ still.pools, pool.worker.isReady still.now = false) ∧
    LaterUndisturbed c p still w' ∧ w'.now = still.now ∧ w'.Undisturbed c p

/-- Whoever waits outside looks only when no worker has anything to do. -/
theorem awaitFrom_still {stop : World → Bool} {limit : Option Instant} {fuel : Nat}
    (waited : awaitFrom stop limit fuel w = some w') :
    ∀ pool ∈ w'.pools, pool.worker.isReady w'.now = false := by
  induction fuel generalizing w with
  | zero => cases waited
  | succ fuel ih =>
    unfold awaitFrom at waited
    split at waited
    · exact ih waited
    · rename_i quiet
      split at waited
      · cases waited
        exact (move?_none quiet).1
      · split at waited
        · cases waited
        · exact ih waited

/-- Nobody who looks at a cache that keeps ahead finds an expired token, nor a stale one unless the
refresh that its time has come for is still in progress. -/
theorem refreshing_keeps_ahead (h : Reachable w) {config : Config} {issuer : Issuer}
    {opened : World} (opens : w.openCache config issuer = (.ok c, opened))
    (ahead : config.KeepsAhead issuer) (watched : Watched c p opened w') {cache : Cache}
    (hc : w'.caches[c]? = some cache) {issued : Issued} (current : cache.current = some issued) :
    cache.Covers issued w'.now := by
  obtain ⟨still, before, quiet, after, now, undisturbed⟩ := watched
  have sound : opened.Sound := Step.sound h.sound (.openCache opens)
  have reached : Reachable opened := h.later (.single (.openCache opens))
  obtain ⟨first, shows, fresh, -, rfl, rfl⟩ := h.sound.openCache opens
  obtain ⟨x, shows', later⟩ := shows.laterUndisturbed sound (before.trans after)
  obtain rfl := Option.some.inj (shows'.cache.symm.trans hc)
  have exact' : first.Sound True first.now := fresh.sound
  have follows := Chain.Later.follows later
  have on : x.scheduler.isShutDown = false := by
    obtain ⟨⟨cache, scheduler, hc', hs, on⟩, -⟩ := undisturbed
    obtain rfl := Option.some.inj (hc'.symm.trans shows'.cache)
    obtain rfl := Option.some.inj (hs.symm.trans shows'.scheduler)
    exact Scheduler.not_isShutDown_iff.mpr ⟨p, on⟩
  rw [← shows'.now]
  apply (exact'.later later).covers (fresh.paced.later exact' later)
    (fresh.published.later exact' later).1 on _ _ current
  · rw [follows.config, follows.issuer]
    exact ahead
  · -- The workers were still when the clock came to this moment, and so the live run rests.
    have sound' := sound.later (LaterUndisturbed.later before)
    obtain ⟨y, shows'', later'⟩ := shows.laterUndisturbed sound before
    have calm := (sound'.calm quiet y.cache.scheduler).later sound' shows''
      (LaterUndisturbed.later after) now
    intro task ht
    rw [shows'.live, mem_live] at ht
    obtain ⟨q, pool, hq, ht, mine⟩ := ht
    have same : y.cache.scheduler = x.cache.scheduler :=
      (Chain.Later.follows later').scheduler.trans follows.scheduler.symm
    rw [shows'.now]
    obtain ⟨holder, free, stage, -⟩ | rests := calm q pool hq task ht (mine.trans (same ▸ rfl))
    · exact (undisturbed.not_blocked (sound'.later (LaterUndisturbed.later after)) shows'
        ⟨q, pool, hq, ⟨holder, free, stage⟩, task, ht, mine⟩).elim
    · exact rests

def leisurely (lifetime : UInt64) (duration : Span) : World :=
  (({} : World).openCache { minDelay := 0 } fun k =>
    ⟨if k = 0 then [] else [.rest duration], .resource ⟨some ⟨"token"⟩, lifetime⟩⟩).2

theorem keepsAhead_leisurely (lifetime : UInt64) (duration : Span)
    (le : ({ minDelay := 0 } : Config).refreshDelay lifetime + duration ≤
      Span.ofSecs lifetime.toNat) :
    ({ minDelay := 0 } : Config).KeepsAhead fun k =>
      ⟨if k = 0 then [] else [.rest duration], .resource ⟨some ⟨"token"⟩, lifetime⟩⟩ := by
  intro k
  refine ⟨⟨"token"⟩, lifetime, duration, rfl, fun t => ?_, le⟩
  simpa [Call.doneAt, Action.doneAt, Pause.doneAt] using t.afterRest_le duration

def twoTimes (t t' : Instant) (w : World) : World :=
  { w.onTo t with now := t' }

theorem watched_twoTimes {t t' : Instant} (goes : (w.staysFree 20 && (moves 20 w).isFree &&
      (moves 20 w).quietTill t && staysFree { moves 20 w with now := t } 20 &&
      (w.onTo t).isFree && (w.onTo t).quietTill t' && (w.twoTimes t t').isFree &&
      (w.twoTimes t t').pools.all fun pool => !pool.worker.isReady t') = true) :
    Watched 0 0 w (w.twoTimes t t') := by
  simp only [Bool.and_eq_true] at goes
  obtain ⟨⟨⟨⟨⟨⟨⟨first, free⟩, quiet⟩, second⟩, free'⟩, quiet'⟩, free''⟩, still⟩ := goes
  have before := (laterUndisturbed_moves first).trans (laterUndisturbed_tick free quiet)
  have after := (laterUndisturbed_moves second).trans (laterUndisturbed_tick free' quiet')
  refine ⟨_, before.trans after, fun pool member => ?_, .refl, rfl, undisturbed_of_isFree free''⟩
  simpa using List.all_eq_true.mp still pool member

def shown (w : World) : Option (Issued × Status × Bool) := do
  let cache ← w.caches[0]?
  let issued ← cache.current
  some (issued, issued.statusAt w.now,
    cache.calls.any fun call => issued.refreshAt == some call.began)

theorem shown_some {status : Status} {refreshed : Bool}
    (h : w.shown.map (·.2) = some (status, refreshed)) : ∃ cache issued,
      w.caches[0]? = some cache ∧ cache.current = some issued ∧ issued.statusAt w.now = status ∧
        (cache.calls.any fun call => issued.refreshAt == some call.began) = refreshed := by
  obtain ⟨⟨issued, rest⟩, there, rfl⟩ := Option.map_eq_some_iff.mp h
  obtain ⟨cache, hc, there⟩ := Option.bind_eq_some_iff.mp there
  obtain ⟨issued, current, same⟩ := Option.bind_eq_some_iff.mp there
  cases same
  exact ⟨cache, issued, hc, current, rfl, rfl⟩

/-- A token is refreshed after ten seconds of thirty, and the next one comes after fifteen more. -/
theorem refreshing_keeps_ahead_leisurely : ∃ w' cache issued,
    Watched 0 0 (leisurely 30 (Span.ofSecs 15)) w' ∧ w'.caches[0]? = some cache ∧
      cache.current = some issued ∧ issued.statusAt w'.now = .stale ∧
      cache.Covers issued w'.now := by
  let w' := (leisurely 30 (Span.ofSecs 15)).twoTimes
    (Instant.start + Span.ofSecs 10) (Instant.start + Span.ofSecs 20)
  have watched : Watched 0 0 (leisurely 30 (Span.ofSecs 15)) w' :=
    watched_twoTimes (by decide +kernel)
  have seen : w'.shown.map (·.2) = some (.stale, true) := by decide +kernel
  obtain ⟨cache, issued, hc, current, stale, -⟩ := shown_some seen
  have ahead := keepsAhead_leisurely 30 (Span.ofSecs 15) (by decide)
  exact ⟨w', cache, issued, watched, hc, current, stale,
    refreshing_keeps_ahead reachable_new rfl ahead watched hc current⟩

/-- A refresh that would be put off for longer than the longest rest begins before its time. -/
theorem stale_before_refresh : ∃ config issuer opened w' cache issued,
    ({} : World).openCache config issuer = (.ok 0, opened) ∧ config.KeepsAhead issuer ∧
      Watched 0 0 opened w' ∧ w'.caches[0]? = some cache ∧ cache.current = some issued ∧
      issued.statusAt w'.now = .stale ∧
      ∀ call ∈ cache.calls, issued.refreshAt ≠ some call.began := by
  let late := leisurely 3000000000 (Span.ofSecs 60000000)
  let w' := late.twoTimes (Instant.start + Span.longestRest)
    (Instant.start + Span.ofSecs 1000000000)
  have watched : Watched 0 0 late w' := watched_twoTimes (by decide +kernel)
  have seen : w'.shown.map (·.2) = some (.stale, false) := by decide +kernel
  obtain ⟨cache, issued, hc, current, stale, unrefreshed⟩ := shown_some seen
  have ahead := keepsAhead_leisurely 3000000000 (Span.ofSecs 60000000) (by decide)
  refine ⟨_, _, late, w', cache, issued, rfl, ahead, watched, hc, current, stale, ?_⟩
  simpa using unrefreshed

end World
end TokenKeeper
