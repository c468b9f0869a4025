import TokenKeeper.Proofs.Chain.Sound
import TokenKeeper.Proofs.World.Readers
/-! What a cache shows is what the last good reply brought that has been taken up. Nothing goes
back: publications are only added, so nobody who reads the token sees an older one than before. -/
namespace TokenKeeper

theorem Reply.token_ok {reply : Reply} {token : AccessToken} {lifetime : UInt64}
    (h : reply.token = .ok (token, lifetime)) :
    ∃ resource, reply = .resource resource ∧ resource.token = some token ∧ token.text ≠ "" ∧
      lifetime = resource.lifetime := by
  cases reply with
  | resource resource =>
    simp only [Reply.token] at h
    split at h
    · rename_i usable
      cases h
      obtain ⟨there, text⟩ := Option.filter_eq_some_iff.mp usable
      exact ⟨resource, rfl, there, by simpa using text, rfl⟩
    · cases h
  | failure | panic => cases h

namespace Config
variable (config : Config)

theorem delayAfter_ok {reply : Reply} {token : AccessToken} {lifetime : UInt64}
    (h : reply.token = .ok (token, lifetime)) :
    config.delayAfter reply = config.refreshDelay lifetime := by
  unfold Config.delayAfter
  rw [h]

theorem refreshDelay_pos (lifetime : UInt64) : 0 < config.refreshDelay lifetime := by
  apply lt_max_of_lt_left
  exact Nat.mul_pos (lt_max_of_lt_right Nat.one_pos) (by decide)

end Config

theorem Instant.lt_afterRest (t : Instant) {length : Span} (h : 0 < length) :
    t < t.afterRest length :=
  Nat.lt_add_of_pos_right (lt_min h (by decide))

namespace Attempt

def issued? (config : Config) (attempt : Attempt) : Option Issued :=
  match attempt.ended, attempt.concluded with
  | some (_, reply), some received => match reply.token with
    | .ok (token, lifetime) => some (config.issue token lifetime received)
    | .error _ => none
  | _, _ => none

theorem issued?_some {config : Config} {attempt : Attempt} {issued : Issued}
    (h : attempt.issued? config = some issued) :
    ∃ ended reply received token lifetime, attempt.ended = some (ended, reply) ∧
      attempt.concluded = some received ∧ reply.token = .ok (token, lifetime) ∧
      issued = config.issue token lifetime received := by
  unfold issued? at h
  split at h
  · rename_i ended reply received he hc
    split at h
    · rename_i token lifetime usable
      exact ⟨ended, reply, received, token, lifetime, he, hc, usable, (Option.some.inj h).symm⟩
    · cases h
  · cases h

theorem issued?_ok (config : Config) {attempt : Attempt} {time received : Instant} {reply : Reply}
    {token : AccessToken} {lifetime : UInt64} (he : attempt.ended = some (time, reply))
    (hc : attempt.concluded = some received) (usable : reply.token = .ok (token, lifetime)) :
    attempt.issued? config = some (config.issue token lifetime received) := by
  unfold issued?
  simp only [he, hc, usable]

theorem issued?_error (config : Config) {attempt : Attempt} {time : Instant} {reply : Reply}
    {error : LoadError} (he : attempt.ended = some (time, reply))
    (useless : reply.token = .error error) : attempt.issued? config = none := by
  unfold issued?
  rw [he]
  cases attempt.concluded with
  | none => rfl
  | some received => simp only [useless]

theorem issued?_none {config : Config} {attempt : Attempt} (h : attempt.concluded = none) :
    attempt.issued? config = none := by
  unfold issued?
  rw [h]
  cases attempt.ended <;> rfl

end Attempt

namespace Cache
variable {cache cache' : Cache}

def calls (cache : Cache) : List Attempt := cache.attempts.reverse

def publications (cache : Cache) : List Issued := cache.calls.filterMap (·.issued? cache.config)

/-- The token after the first `n` publications. -/
def tokenAfter (cache : Cache) (n : Nat) : Option AccessToken :=
  (cache.publications.take n).getLast?.map (·.token)

theorem publications_congr (attempts : cache'.attempts = cache.attempts)
    (config : cache'.config = cache.config) : cache'.publications = cache.publications := by
  unfold publications calls
  rw [attempts, config]

theorem publications_cons {latest : Attempt} {earlier : List Attempt}
    (h : cache.attempts = latest :: earlier) :
    cache.publications =
      earlier.reverse.filterMap (·.issued? cache.config) ++
        (latest.issued? cache.config).toList := by
  unfold publications calls
  rw [h, List.reverse_cons, List.filterMap_append]
  cases issues : latest.issued? cache.config <;> simp [issues]

theorem beginCall_publications (cache : Cache) (now : Instant) :
    (cache.beginCall now).publications = cache.publications := by
  have begun : (cache.beginCall now).attempts = { began := now } :: cache.attempts := rfl
  rw [publications_cons begun]
  exact List.append_nil _

theorem tokenAfter_prefix (h : cache.publications <+: cache'.publications) {n : Nat}
    (le : n ≤ cache.publications.length) : cache'.tokenAfter n = cache.tokenAfter n := by
  obtain ⟨more, h⟩ := h
  unfold tokenAfter
  rw [← h, List.take_append_of_le_length le]

theorem calls_of_latest {latest latest' : Attempt}
    {earlier : List Attempt} (before : cache.attempts = latest :: earlier)
    (after : cache'.attempts = latest' :: earlier) (waits : latest.concluded = none) {n : Nat}
    {call : Attempt} (hc : cache.calls[n]? = some call) (taken : call.concluded.isSome = true) :
    cache'.calls[n]? = some call := by
  unfold calls at hc ⊢
  rw [before, List.reverse_cons] at hc
  rw [after, List.reverse_cons]
  obtain old | ⟨-, rfl⟩ := getElem?_concat_cases hc
  · rw [List.getElem?_append_left (List.getElem?_eq_some_iff.mp old).1, old]
  · rw [waits] at taken
    cases taken

inductive Publishes (now : Instant) (before after : Cache) : Prop where
  | nothing (publications : after.publications = before.publications)
      (current : after.current = before.current) (ready : after.ready = before.ready)
  | token {issued} (publications : after.publications = before.publications ++ [issued])
      (current : after.current = some issued) (ready : after.ready = true)
      (received : issued.received = now)

end Cache

/-- The task goes on at a fixed time only, which is still to come. -/
def Task.Rests (now : Instant) (task : Task) : Prop :=
  ∃ due, now < due ∧
    (task.due? = some due ∨ ∃ submission, task.awaits? now = some (submission, due))

theorem Task.Rests.not_begins {now : Instant} {off : Bool} {task : Task} {submission : Submission}
    (h : task.Rests now) : ¬task.Begins now off submission := by
  obtain ⟨due, ahead, kind⟩ := h
  intro begins
  cases begins with
  | atOnce => rcases kind with kind | ⟨_, kind⟩ <;> cases kind
  | waited waits _ lapsed =>
    unfold Task.awaits? at waits
    split at waits <;> cases waits
    · rcases kind with kind | ⟨_, kind⟩ <;> cases kind
      exact absurd ahead lapsed.not_gt
    · rcases kind with kind | ⟨_, kind⟩ <;> cases kind <;> exact absurd ahead lapsed.not_gt

namespace Chain
variable {exact : Prop} {start : Instant} {x x' : Chain} {held : Prop}

theorem Turn.rests {task : Task} {added : Multiset Task} {scheduler : Scheduler} {cache : Cache}
    (turn : x.Turn task added scheduler cache) (rests : task.Rests x.now) :
    (∀ next ∈ added, next.Rests x.now) ∧ cache = x.cache := by
  have ⟨due, ahead, kind⟩ := rests
  cases turn with
  | enter begins | enterDropped begins => exact absurd begins rests.not_begins
  | abandon => exact ⟨nofun, rfl⟩
  | wait waits =>
    refine ⟨fun next hn => ?_, rfl⟩
    rw [Multiset.mem_singleton.mp hn]
    refine ⟨_, ?_, .inl rfl⟩
    unfold Task.awaits? at waits
    split at waits <;> cases waits
    · rcases kind with kind | ⟨_, kind⟩ <;> cases kind
      exact ahead
    · rcases kind with kind | ⟨_, kind⟩ <;> cases kind <;> exact ahead
  | @pause _ _ pause rest _ until' hd =>
    refine ⟨fun next hn => ?_, rfl⟩
    rw [Multiset.mem_singleton.mp hn]
    rcases kind with kind | ⟨_, kind⟩
    · cases pause <;> cases kind
      cases hd
      exact ⟨due, ahead, .inl rfl⟩
    · cases kind
  | @resume _ _ pause rest _ lapsed =>
    rcases kind with kind | ⟨_, kind⟩
    · cases pause <;> cases kind
      exact absurd ahead (lapsed due rfl).not_gt
    · cases kind
  | _ => rcases kind with kind | ⟨_, kind⟩ <;> cases kind

/-- A turn publishes when it takes up a good reply, and then the next load is not due yet. -/
theorem Turn.publishes {task : Task} {added : Multiset Task} {scheduler : Scheduler}
    {cache : Cache} (turn : x.Turn task added scheduler cache)
    (stands : Stands exact start x task) :
    Cache.Publishes x.now x.cache cache ∧
      (cache.publications ≠ x.cache.publications → ∀ next ∈ added, next.Rests x.now) := by
  have still {cache : Cache} (same : cache.publications = x.cache.publications)
      (current : cache.current = x.cache.current) (ready : cache.ready = x.cache.ready) :
      Cache.Publishes x.now x.cache cache ∧
        (cache.publications ≠ x.cache.publications → ∀ next ∈ added, next.Rests x.now) :=
    ⟨.nothing same current ready, fun new => absurd same new⟩
  -- Only the latest call changes, and it brings nothing before it is taken up.
  have concluded {run : RunId} {c : CacheId} {reply : Reply}
      (stands : Stands exact start x (.conclude run c reply))
      (rests : 0 < x.cache.config.delayAfter reply → ∀ next ∈ added, next.Rests x.now) :
      Cache.Publishes x.now x.cache (x.cache.conclude x.cache.config reply x.now) ∧
        ((x.cache.conclude x.cache.config reply x.now).publications ≠ x.cache.publications →
          ∀ next ∈ added, next.Rests x.now) := by
    cases stands with
    | @conclude _ _ attempt earlier ended _ attempts he hc time =>
      have before := Cache.publications_cons attempts
      rw [Attempt.issued?_none hc, Option.toList_none, List.append_nil] at before
      have after := Cache.publications_cons
        (conclude_attempts attempts x.cache.config reply x.now)
      rw [(Cache.Follows.conclude x.cache x.cache.config reply x.now).config, ← before] at after
      have taken : { attempt with concluded := some x.now }.ended = some (ended, reply) := he
      cases usable : reply.token with
      | ok good =>
        obtain ⟨token, lifetime⟩ := good
        rw [Attempt.issued?_ok x.cache.config taken rfl usable] at after
        refine ⟨.token after ?_ ?_ rfl, fun _ => rests ?_⟩
        · simp only [Cache.conclude, Cache.takeUp, usable]
          rfl
        · simp only [Cache.conclude, Cache.takeUp, usable]
          rfl
        · rw [x.cache.config.delayAfter_ok usable]
          exact x.cache.config.refreshDelay_pos lifetime
      | error error =>
        rw [Attempt.issued?_error x.cache.config taken usable, Option.toList_none,
          List.append_nil] at after
        refine ⟨.nothing after ?_ ?_, fun new => absurd after new⟩ <;>
          simp only [Cache.conclude, Cache.takeUp, usable] <;> rfl
  cases turn with
  | call => exact still (x.cache.beginCall_publications x.now) rfl rfl
  | endCall =>
    cases stands with
    | @call _ _ _ attempt earlier attempts he hc =>
      let reply := (x.cache.issuer earlier.length).reply
      have same : { attempt with ended := some (x.now, reply) }.issued? x.cache.config =
          attempt.issued? x.cache.config := by
        rw [Attempt.issued?_none hc]
        exact Attempt.issued?_none hc
      have after := Cache.publications_cons (onLatest_attempts attempts fun attempt =>
        { attempt with ended := some (x.now, reply) })
      refine still (after.trans ?_) rfl rfl
      rw [Cache.publications_cons attempts, ← same]
      rfl
  | conclude =>
    refine concluded stands fun positive next hn => ?_
    rw [Multiset.mem_singleton.mp hn]
    exact ⟨_, x.now.lt_afterRest positive, .inr ⟨_, rfl⟩⟩
  | concludeLast => exact concluded stands fun _ => by simp
  | _ => exact still rfl rfl rfl

/-- What has been taken up stays as it is. -/
theorem Turn.calls_stay {task : Task} {added : Multiset Task} {scheduler : Scheduler}
    {cache : Cache} (turn : x.Turn task added scheduler cache) (stands : Stands exact start x task)
    {n : Nat} {call : Attempt} (hc : x.cache.calls[n]? = some call)
    (taken : call.concluded.isSome = true) : cache.calls[n]? = some call := by
  cases turn with
  | call =>
    unfold Cache.calls Cache.beginCall
    rw [List.reverse_cons]
    exact (List.getElem?_append_left (List.getElem?_eq_some_iff.mp hc).1).trans hc
  | endCall =>
    cases stands with
    | call attempts _ waits =>
      exact Cache.calls_of_latest attempts (onLatest_attempts attempts _) waits hc taken
  | conclude | concludeLast =>
    cases stands with
    | conclude attempts _ waits =>
      exact Cache.calls_of_latest attempts (conclude_attempts attempts _ _ _) waits hc taken
  | _ => exact hc

theorem Later.calls_stay (later : Chain.Later (¬exact) x x') (sound : x.Sound exact start) {n : Nat}
    {call : Attempt} (hc : x.cache.calls[n]? = some call) (taken : call.concluded.isSome = true) :
    x'.cache.calls[n]? = some call := by
  induction later with
  | refl => exact hc
  | tail before step ih =>
    cases step with
    | turn live turn =>
      exact turn.calls_stay ((sound.later before).stands _ (by simp [live])) ih taken
    | tick | lose | shut | drop => exact ih

/-- What a cache has published at any time. -/
structure Published (x : Chain) : Prop where
  current : x.cache.current = x.cache.publications.getLast?
  ready : x.cache.ready = x.cache.current.isSome
  past : ∀ issued ∈ x.cache.publications, issued.received ≤ x.now
  apart : x.cache.publications.Pairwise fun older newer => older.received < newer.received
  rests : ∀ issued ∈ x.cache.publications, issued.received = x.now →
    ∀ task ∈ x.live, task.Rests x.now

theorem Fresh.published (fresh : x.Fresh) : x.Published := by
  have nothing : x.cache.publications = [] := by
    unfold Cache.publications Cache.calls
    rw [fresh.attempts]
    rfl
  constructor
  · rw [fresh.current, nothing]
    rfl
  · rw [fresh.ready, fresh.current]
    rfl
  all_goals simp [nothing]

theorem Published.step (h : x.Published) (sound : x.Sound exact start)
    (step : Chain.Step held x x') : x'.Published := by
  cases step with
  | @tick t later due =>
    refine ⟨h.current, h.ready, fun issued hi => (h.past issued hi).trans later, h.apart,
      fun issued hi now => ?_⟩
    have same : x.now = t := 
      le_antisymm later ((le_of_eq now.symm).trans (h.past issued hi))
    exact same ▸ h.rests issued hi (now.trans same.symm)
  | @turn task added rest scheduler cache live turn =>
    obtain rfl := sound.no_rest live
    have member : task ∈ x.live := by simp [live]
    rw [add_zero]
    obtain ⟨publishes, rests⟩ := turn.publishes (sound.stands task member)
    cases publishes with
    | nothing publications current ready =>
      refine ⟨?_, ?_, ?_, ?_, ?_⟩
      · exact current.trans (h.current.trans (by rw [publications]))
      · exact ready.trans (h.ready.trans (by rw [current]))
      · exact publications ▸ h.past
      · exact publications ▸ h.apart
      · intro issued hi now
        rw [publications] at hi
        exact (turn.rests (h.rests issued hi now task member)).1
    | @token issued publications current ready received =>
      have new : cache.publications ≠ x.cache.publications := by simp [publications]
      -- A run that rests would not have published.
      have earlier : ∀ old ∈ x.cache.publications, old.received < x.now := by
        intro old ho
        apply lt_of_le_of_ne (h.past old ho)
        intro now
        apply new
        rw [(turn.rests (h.rests old ho now task member)).2]
      refine ⟨?_, ?_, ?_, ?_, fun _ _ _ => rests new⟩
      · simp [publications, current]
      · simp [ready, current]
      · intro old ho
        rw [publications] at ho
        rcases List.mem_append.mp ho with ho | ho
        · exact (earlier old ho).le
        · rw [List.mem_singleton.mp ho, received]
      · rw [publications, List.pairwise_append]
        refine ⟨h.apart, List.pairwise_singleton _ _, fun old ho last hl => ?_⟩
        rw [List.mem_singleton.mp hl, received]
        exact earlier old ho
  | lose off le =>
    exact ⟨h.current, h.ready, h.past, h.apart, fun issued hi now task ht =>
      h.rests issued hi now task (Multiset.mem_of_le le ht)⟩
  | shut => exact ⟨h.current, h.ready, h.past, h.apart, h.rests⟩
  | drop => exact ⟨h.current, h.ready, h.past, h.apart, h.rests⟩

def Adds (x x' : Chain) : Prop :=
  x.now ≤ x'.now ∧ ∃ new, x'.cache.publications = x.cache.publications ++ new ∧
    ∀ issued ∈ new, x.now ≤ issued.received

theorem Adds.refl (x : Chain) : Adds x x := ⟨le_rfl, [], by rw [List.append_nil], nofun⟩

theorem Adds.trans {first second third : Chain} (h : Adds first second) (h' : Adds second third) :
    Adds first third := by
  obtain ⟨le, new, publications, received⟩ := h
  obtain ⟨le', new', publications', received'⟩ := h'
  refine ⟨le.trans le', new ++ new', by rw [publications', publications, List.append_assoc], ?_⟩
  intro issued hi
  rcases List.mem_append.mp hi with old | young
  · exact received issued old
  · exact le.trans (received' issued young)

theorem Sound.adds (h : x.Sound exact start) (step : Chain.Step held x x') : Adds x x' := by
  cases step with
  | tick later => exact ⟨later, [], (List.append_nil _).symm, nofun⟩
  | @turn task added rest scheduler cache live turn =>
    refine ⟨le_rfl, ?_⟩
    cases (turn.publishes (h.stands task (by simp [live]))).1 with
    | nothing publications => exact ⟨[], by simp [publications], nofun⟩
    | @token issued publications _ _ received =>
      exact ⟨[issued], publications, by simp [received]⟩
  | lose | shut | drop => exact ⟨le_rfl, [], (List.append_nil _).symm, nofun⟩

theorem Published.later (h : x.Published) (sound : x.Sound exact start)
    (later : Chain.Later (¬exact) x x') : x'.Published ∧ Adds x x' := by
  induction later with
  | refl => exact ⟨h, .refl x⟩
  | tail before step ih =>
    have sound' := sound.later before
    exact ⟨ih.1.step sound' step, ih.2.trans (sound'.adds step)⟩

end Chain
end TokenKeeper
