import TokenKeeper.Proofs.Sharing.Own
/-! Caches on one registry do not disturb each other, whether they share a pool or not. What is left
of a run for whoever looks at one cache only is a run in which that cache is alone. -/
namespace TokenKeeper

def Cache.unplaced (cache : Cache) : Cache := { cache with scheduler := 0 }

theorem Chain.Matches.unplaced {x y : Chain} (h : x.Matches y) :
    y.cache.unplaced = x.cache.unplaced := by
  unfold Cache.unplaced
  simp only [h.config, h.issuer, h.attempts, h.current, h.ready, h.dropped]

namespace World
variable {c : CacheId} {w w' v v' : World} {operation : Operation} {answer : Answer}

def sees (w : World) (c : CacheId) : Option Cache := w.caches[c]?.map Cache.unplaced

structure View where
  /-- The answer, if the operation is on the cache. -/
  answer : Option Answer
  now : Instant
  cache : Option Cache

namespace Event

def view (event : Event) (c : CacheId) : View where
  answer := if event.operation.cache? = some c then some event.answer else none
  now := event.after.now
  cache := event.after.sees c

/-- What is to be done where the cache is alone. An operation on another cache becomes a wait as
long as it waited, or nothing if it did not wait. -/
def alone (event : Event) (c : CacheId) : List Operation :=
  if event.operation.cache? = some c then [event.operation.ofFirst]
  else if event.answer = .made c then [event.operation]
  else if event.before.waits event.operation then [.advance (event.after.now - event.before.now)]
  else []

def left (event : Event) (c : CacheId) : List (Operation × View) :=
  (event.alone c).map fun operation => (operation, event.view c)

theorem alone_advance (h : Reachable w) {length : Span}
    (takes : w.Takes (.advance length) answer w') (c : CacheId) :
    alone ⟨w, .advance length, answer, w'⟩ c = [.advance length] := by
  cases takes with
  | atOnce still => cases still
  | serves asks => cases asks
  | passes waited =>
    have now := awaitFrom_reaches h (Nat.le_add_right w.now length) waited
    have long : w'.now - w.now = length := by
      unfold Instant Span at *
      omega
    have waits : w.waits (.advance length) = true := rfl
    unfold alone
    rw [if_neg nofun, if_neg nofun, if_pos waits, long]

end Event

/-- The cache `c` of the one world is the only cache of the other, or is still to come in both. -/
inductive Companion (c : CacheId) (w v : World) : Prop where
  | before (absent : w.caches.length ≤ c) {verbosity : Verbosity}
      (blank : v = { now := w.now, verbosity := verbosity })
  | since {start : Instant} {x y : Chain} (tandem : Tandem c start w v x y)
      (served : v.allServed = true)

namespace Companion

theorem now (h : Companion c w v) : v.now = w.now := by
  cases h with
  | before absent blank => rw [blank]
  | since tandem => exact tandem.now

theorem sees (h : Companion c w v) : v.sees 0 = w.sees c := by
  unfold World.sees
  cases h with
  | before absent blank =>
    rw [blank, List.getElem?_eq_none absent]
    rfl
  | since tandem =>
    rw [tandem.only.cache, tandem.shows.cache, Option.map_some, Option.map_some,
      tandem.same.unplaced]

/-- The one world goes on with the event, and the other with what is left of it. -/
def Follows (c : CacheId) (v : World) (event : Event) : Prop :=
  ∃ events v', Runs v events v' ∧
    events.map (fun event => (event.operation, event.view 0)) = event.left c ∧
      Companion c event.after v'

theorem skips {event : Event} (h : Companion c event.after v) (nothing : event.alone c = []) :
    Follows c v event := by
  refine ⟨[], v, .nil, ?_, h⟩
  rw [Event.left, nothing]
  rfl

theorem does {event : Event} {operation : Operation} {answer : Answer}
    (h : Companion c event.after v') (one : event.alone c = [operation])
    (allows : v.Allows operation) (takes : v.Takes operation answer v')
    (same : (if operation.cache? = some 0 then some answer else none) =
      if event.operation.cache? = some c then some event.answer else none) :
    Follows c v event := by
  refine ⟨[⟨v, operation, answer, v'⟩], v', Runs.nil.snoc allows takes, ?_, h⟩
  rw [Event.left, one, List.map_singleton, List.map_singleton]
  unfold Event.view
  rw [h.now, h.sees, same]

theorem blank_passes (now : Instant) (verbosity : Verbosity) {t : Instant} (ahead : now ≤ t) :
    awaitFrom (fun _ => false) (some t) 2 { now := now, verbosity := verbosity } =
      some { now := t, verbosity := verbosity } := by
  have quiet (now : Instant) : move? { now := now, verbosity := verbosity } = none := rfl
  obtain rfl | more := ahead.eq_or_lt
  · simp [awaitFrom, quiet]
  · simp [awaitFrom, quiet, nextTime?, more.not_ge]

theorem blank_waits (now : Instant) (verbosity : Verbosity) {t : Instant} (ahead : now ≤ t) :
    Takes { now := now, verbosity := verbosity } (.advance (t - now)) .done
      { now := t, verbosity := verbosity } := by
  have there : now + (t - now) = t := by
    unfold Instant at *
    omega
  have passes := blank_passes now verbosity ahead
  nth_rewrite 1 [← there] at passes
  exact .passes passes

/-- A cache that is opened beside others is opened as the first one where it is alone. -/
theorem opened {config : Config} {issuer : Issuer} {verbosity : Verbosity} (h : w.Orderly)
    (allows : w.Allows (.openCache config issuer))
    (opens : w.openCache config issuer = (.ok c, w')) :
    ∃ v', Takes { now := w.now, verbosity := verbosity } (.openCache config issuer) (.made 0) v' ∧
      Companion c w' v' := by
  have sound := h.peaceful.reachable.sound
  obtain ⟨-, p, on⟩ := sound.opensOn opens
  obtain ⟨opened, -, had, -⟩ := on.pool
  obtain ⟨named, -⟩ := h.named.poolFor had
  obtain ⟨v', opens', lone, readers⟩ := openCache_empty w.now verbosity named allows.gentle
  obtain ⟨x, shows, fresh, now, config_x, issuer_x⟩ := sound.openCache opens
  obtain ⟨y, only, fresh', now', config_y, issuer_y⟩ :=
    (Peaceful.new w.now verbosity).reachable.sound.openCache opens'
  have steady := fresh.steady (issuer_x ▸ allows.gentle)
  have steady' := fresh'.steady (issuer_y ▸ allows.gentle)
  rw [now] at steady
  rw [now'] at steady'
  have tandem : Tandem c w.now w' v' x y := by
    refine ⟨(h.peaceful.openCache allows.gentle opens).peaceful, lone, shows, only, steady,
      steady', .fresh fresh fresh' ?_ ?_ ?_⟩
    · rw [now, now']
    · rw [config_x, config_y]
    · rw [issuer_x, issuer_y]
  refine ⟨v', .atOnce rfl ?_, .since tandem ?_⟩
  · rw [operate, opens']
  · rw [allServed, readers]
    rfl

theorem opening {config : Config} {issuer : Issuer} (h : Companion c w v) (orderly : w.Orderly)
    (allows : w.Allows (.openCache config issuer))
    (opens : w.openCache config issuer = (.ok w.caches.length, w')) :
    Follows c v ⟨w, .openCache config issuer, .made w.caches.length, w'⟩ := by
  obtain ⟨-, p, on⟩ := orderly.peaceful.reachable.sound.opensOn opens
  have skipped (others : w.caches.length ≠ c) :
      Event.alone ⟨w, .openCache config issuer, .made w.caches.length, w'⟩ c = [] := by
    unfold Event.alone
    rw [if_neg nofun, if_neg fun same => others (Answer.made.inj same)]
    rfl
  cases h with
  | before absent blank =>
    obtain rfl | later := absent.eq_or_lt
    · subst blank
      obtain ⟨v', takes, companion⟩ := opened orderly allows opens
      refine companion.does ?_ ⟨rfl, allows.gentle⟩ takes rfl
      unfold Event.alone
      rw [if_neg nofun, if_pos rfl]
    · refine skips (.before ?_ (on.now ▸ blank)) (skipped later.ne)
      rw [on.caches, List.length_append]
      exact later
  | since tandem served =>
    have becomes := orderly.peaceful.openCache allows.gentle opens
    refine skips (.since (tandem.left becomes rfl) served) (skipped ?_)
    exact (List.getElem?_eq_some_iff.mp tandem.shows.cache).1.ne'

theorem waiting (h : Companion c w v) (waits : w.waits operation = true)
    (foreign : operation.cache? ≠ some c) (unmade : answer ≠ .made c) {between after : World}
    (begins : Becomes w between fun _ x => x) (size : SameSize w between)
    (passes : Passes between after) (quiet : after.move? = none)
    (ends : Becomes after w' fun _ x => x) (size' : SameSize after w') :
    Follows c v ⟨w, operation, answer, w'⟩ := by
  have one : Event.alone ⟨w, operation, answer, w'⟩ c = [.advance (w'.now - w.now)] := by
    unfold Event.alone
    rw [if_neg foreign, if_neg unmade, if_pos waits]
  have same : (if (Operation.advance (w'.now - w.now)).cache? = some 0 then some Answer.done
      else none) = if operation.cache? = some c then some answer else none := by
    rw [if_neg nofun, if_neg foreign]
  cases h with
  | @before absent verbosity blank =>
    have later : w.now ≤ w'.now := by
      rw [ends.now, ← begins.now]
      exact Later.now_le begins.peaceful.reachable.sound passes.later
    subst blank
    have sizes := (size.trans (begins.peaceful.sameSize_passes passes)).trans size'
    refine does (.before ?_ rfl) one ⟨rfl, trivial⟩ (blank_waits w.now verbosity later) same
    exact sizes.caches.trans_le absent
  | since tandem served =>
    have meanwhile := tandem.left begins rfl
    obtain ⟨v', x', y', takes, served', tandem'⟩ := meanwhile.waits served passes quiet
    rw [← ends.now, tandem.now] at takes
    exact does (.since (tandem'.left ends rfl) served') one ⟨rfl, trivial⟩ takes same

theorem foreign (h : Companion c w v) (orderly : w.Orderly) (allows : w.Allows operation)
    (takes : w.Takes operation answer w') (foreign : operation.cache? ≠ some c) :
    Follows c v ⟨w, operation, answer, w'⟩ := by
  obtain ⟨goes, -⟩ := orderly.goes allows takes
  cases goes with
  | waits waits begins size passes quiet ends size' unmade =>
    exact h.waiting waits foreign (unmade c) begins size passes quiet ends size'
  | opens same opens made =>
    subst same made
    exact h.opening orderly allows opens
  | atOnce still becomes size others unmade =>
    refine skips ?_ ?_
    · cases h with
      | before absent blank =>
        rw [← becomes.now] at blank
        exact .before (size.caches.trans_le absent) blank
      | since tandem served => exact .since (tandem.left becomes (others c _ foreign)) served
    · unfold Event.alone
      rw [if_neg foreign, if_neg (unmade c), still]
      rfl

theorem own (h : Companion c w v) (orderly : w.Orderly) (allows : w.Allows operation)
    (takes : w.Takes operation answer w') (mine : operation.cache? = some c) :
    Follows c v ⟨w, operation, answer, w'⟩ := by
  have bound : c < w.caches.length := by
    have within := allows.within
    cases operation <;> cases mine <;> exact of_decide_eq_true within
  cases h with
  | before absent => exact absurd bound absent.not_gt
  | since tandem served =>
    obtain ⟨v', x', y', takes', served', tandem'⟩ := tandem.own orderly.served served mine takes
    have first := Operation.ofFirst_cache? mine
    refine does (.since tandem' served') (if_pos mine) ⟨?_, ?_⟩ takes' ?_
    · rw [tandem.lone.caches]
      cases operation <;> cases mine <;> rfl
    · cases operation <;> cases mine <;> trivial
    · rw [if_pos first, if_pos mine]

theorem step (h : Companion c w v) (orderly : w.Orderly) (allows : w.Allows operation)
    (takes : w.Takes operation answer w') : Follows c v ⟨w, operation, answer, w'⟩ := by
  by_cases mine : operation.cache? = some c
  · exact h.own orderly allows takes mine
  · exact h.foreign orderly allows takes mine

end Companion

variable {now : Instant} {verbosity : Verbosity} {events : List Event}

theorem Orderly.new (now : Instant) (verbosity : Verbosity) :
    Orderly { now := now, verbosity := verbosity } :=
  ⟨.new now verbosity, rfl, fun _ member => absurd member List.not_mem_nil⟩

theorem Runs.orderly (runs : Runs { now := now, verbosity := verbosity } events w) :
    w.Orderly := by
  induction runs with
  | nil => exact .new now verbosity
  | snoc _ allows takes ih => exact ih.takes allows takes

/-- A run goes on beside what is left of it for one cache. -/
theorem Runs.companion (runs : Runs { now := now, verbosity := verbosity } events w)
    (c : CacheId) : ∃ alone v, Runs { now := now, verbosity := verbosity } alone v ∧
      alone.map (fun event => (event.operation, event.view 0)) = events.flatMap (·.left c) ∧
        Companion c w v := by
  induction runs with
  | nil => exact ⟨[], _, .nil, rfl, .before (Nat.zero_le c) rfl⟩
  | snoc runs allows takes ih =>
    obtain ⟨alone, v, runs', same, companion⟩ := ih
    obtain ⟨more, v', goes, same', companion'⟩ := companion.step runs.orderly allows takes
    refine ⟨alone ++ more, v', runs'.append goes, ?_, companion'⟩
    rw [List.map_append, same, same', List.flatMap_append, List.flatMap_singleton]

/-- Caches on one registry whose issuers never hold a worker do not disturb each other. For each of
them there is a run, just one by `Runs.unique`, in which it is alone: what is done to it is done
there as well, and what is done to another cache is a wait as long as that took, or nothing. In that
run the same shows of the cache after every operation, and in the end. -/
theorem caches_undisturbed (runs : Runs { now := now, verbosity := verbosity } events w)
    (opened : c < w.caches.length) :
    ∃ alone v, Runs { now := now, verbosity := verbosity } alone v ∧
      alone.map (fun event => (event.operation, event.view 0)) = events.flatMap (·.left c) ∧
        v.caches.length = 1 ∧ v.now = w.now ∧ v.sees 0 = w.sees c := by
  obtain ⟨alone, v, runs', same, companion⟩ := runs.companion c
  refine ⟨alone, v, runs', same, ?_, companion.now, companion.sees⟩
  cases companion with
  | before absent => exact absurd opened absent.not_gt
  | since tandem => exact tandem.lone.caches

/-- A cache whose issuer takes a second and then panics, and beside it one that works. -/
def crowd : List Operation :=
  [.openCache { maxWait := Span.ofSecs 2 } fun _ => ⟨[.rest (Span.ofSecs 1)], .panic⟩,
    .openCache {} (.fixed ⟨⟨"token"⟩, 30⟩), .read 0 true, .read 1 true, .close 0,
    .advance (Span.ofSecs 30), .forward 1 []]

theorem crowd_gentle : ∀ operation ∈ crowd, operation.IsGentle := by
  simp [crowd, Operation.IsGentle, Call.IsGentle, Issuer.fixed]

/-- Of the seven operations five are left for the second cache; the first one is a wait. -/
theorem caches_undisturbed_crowd : ∃ events w, Runs {} events w ∧
    events.map (·.operation) = crowd ∧ 1 < w.caches.length ∧
      (events.flatMap (·.left 1)).length = 5 ∧ ∃ alone v, Runs {} alone v ∧
        alone.map (fun event => (event.operation, event.view 0)) = events.flatMap (·.left 1) ∧
          v.caches.length = 1 ∧ v.now = w.now ∧ v.sees 0 = w.sees 1 := by
  have evaluated : (({} : World).operateAll crowd).any (fun r =>
      r.1.all (fun event => event.operation.isWithin event.before.caches.length) &&
        decide (1 < r.2.caches.length) && (r.1.flatMap (·.left 1)).length == 5) = true := by
    decide +kernel
  obtain ⟨⟨events, w⟩, operated, checks⟩ := (Option.any_eq_true _ _).mp evaluated
  simp only [Bool.and_eq_true, List.all_eq_true, decide_eq_true_eq, beq_iff_eq] at checks
  obtain ⟨⟨within, opened⟩, length⟩ := checks
  obtain ⟨runs, operations⟩ := Runs.of_operateAll operated within crowd_gentle
  exact ⟨events, w, runs, operations, opened, length, caches_undisturbed runs opened⟩

end World
end TokenKeeper
