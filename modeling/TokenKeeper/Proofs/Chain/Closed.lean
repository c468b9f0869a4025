import TokenKeeper.Proofs.Chain.Published
import TokenKeeper.Proofs.Operations
/-! What a cache still does once it has been closed. A run that was submitted without a delay is not
called off: it may make one more call. A run that waits for its delay makes none. -/
namespace TokenKeeper

namespace Task

/-- Whether it is a run that has a call before it, whatever may be called off. -/
def isToCall : Task → Bool
  | begin _ | fetch .. => true
  | _ => false

/-- Whether it is a run that may still publish a token. -/
def isToPublish : Task → Bool
  | begin _ | fetch .. | call .. | conclude .. => true
  | _ => false

end Task

namespace Chain
variable {held : Prop} {x x' : Chain}

def callsAhead (x : Chain) : Nat := x.cache.attempts.length + x.live.countP (·.isToCall)

def tokensAhead (x : Chain) : Nat := x.cache.publications.length + x.live.countP (·.isToPublish)

theorem Turn.calls {task : Task} {added : Multiset Task} {scheduler : Scheduler} {cache : Cache}
    (turn : x.Turn task added scheduler cache) (off : x.scheduler.isShutDown = true) :
    cache.attempts.length + added.countP (·.isToCall) ≤
      x.cache.attempts.length + ({task} : Multiset Task).countP (·.isToCall) := by
  cases turn with
  | wait _ on | conclude on =>
    rw [off] at on
    cases on
  | enter begins =>
    cases begins with
    | atOnce => exact le_rfl
    | waited _ on => cases off.symm.trans on
  | call => exact (Nat.add_right_comm ..).le
  | endCall => exact (x.cache.onLatest_length _).le
  | concludeLast => exact (x.cache.conclude_length _ _ _).le
  | abandon | enterDropped => exact Nat.le_add_right _ _
  | pause | resume => exact le_rfl

theorem Turn.tokens {exact : Prop} {start : Instant} {task : Task} {added : Multiset Task}
    {scheduler : Scheduler} {cache : Cache} (turn : x.Turn task added scheduler cache)
    (off : x.scheduler.isShutDown = true) (stands : Stands exact start x task) :
    cache.publications.length + added.countP (·.isToPublish) ≤
      x.cache.publications.length + ({task} : Multiset Task).countP (·.isToPublish) := by
  have ⟨publishes, rests⟩ := turn.publishes stands
  cases turn with
  | wait _ on | conclude on =>
    rw [off] at on
    cases on
  | enter begins =>
    cases begins with
    | atOnce => exact le_rfl
    | waited _ on => cases off.symm.trans on
  | call => rw [Cache.beginCall_publications]; exact le_rfl
  | endCall =>
    cases publishes with
    | nothing same => rw [same]; exact le_rfl
    | token new =>
      -- A run that is about to take up a reply does not rest.
      obtain ⟨_, -, due | ⟨_, due⟩⟩ := rests (by simp [new]) _ (Multiset.mem_singleton_self _)
      all_goals cases due
  | concludeLast =>
    cases publishes with
    | nothing same => rw [same]; exact Nat.le_add_right _ _
    | token new => rw [new, List.length_append]; exact le_rfl
  | abandon | enterDropped => exact Nat.le_add_right _ _
  | pause | resume => exact le_rfl

/-- After a shutdown no step adds to the calls and tokens that are to be expected. -/
theorem Step.ahead {exact : Prop} {start : Instant} (step : Chain.Step held x x')
    (off : x.scheduler.isShutDown = true) (sound : x.Sound exact start) :
    x'.callsAhead ≤ x.callsAhead ∧ x'.tokensAhead ≤ x.tokensAhead := by
  unfold callsAhead tokensAhead
  cases step with
  | tick | shut | drop => exact ⟨le_rfl, le_rfl⟩
  | lose _ le =>
    exact ⟨Nat.add_le_add_left (Multiset.countP_le_of_le _ le) _,
      Nat.add_le_add_left (Multiset.countP_le_of_le _ le) _⟩
  | turn live turn =>
    simp only [live, Multiset.countP_add, ← Nat.add_assoc]
    exact ⟨Nat.add_le_add_right (turn.calls off) _,
      Nat.add_le_add_right (turn.tokens off (sound.stands _ (by simp [live]))) _⟩

theorem Later.ahead {exact : Prop} {start : Instant} (later : Chain.Later (¬exact) x x')
    (off : x.scheduler.isShutDown = true) (sound : x.Sound exact start) :
    x'.callsAhead ≤ x.callsAhead ∧ x'.tokensAhead ≤ x.tokensAhead := by
  induction later with
  | refl => exact ⟨le_rfl, le_rfl⟩
  | tail before step ih =>
    have ⟨calls, tokens⟩ := step.ahead (Later.shut_card before off).1 (sound.later before)
    exact ⟨calls.trans ih.1, tokens.trans ih.2⟩

end Chain

namespace World
variable {w w₁ : World} {c : CacheId} {cache : Cache}

/-- Once a cache has been closed, no calls begin but of the run that was about to begin or to call
by then, if there was one, and no tokens come but of the run that went on or was about to. -/
theorem close_stops_refreshing (h : Reachable w) (hc : w.caches[c]? = some cache)
    (closed : w.close c = some w₁) :
    (w₁.live cache.scheduler).card ≤ 1 ∧ ∃ cache₁, w₁.caches[c]? = some cache₁ ∧
      ∀ w', Later w₁ w' → ∃ cache', w'.caches[c]? = some cache' ∧
        cache'.calls.length ≤
          cache₁.calls.length + (w₁.live cache.scheduler).countP (·.isToCall) ∧
        cache'.publications.length ≤
          cache₁.publications.length + (w₁.live cache.scheduler).countP (·.isToPublish) := by
  obtain ⟨later, off⟩ := close_later h hc closed
  have h₁ := h.later later
  obtain ⟨x, shows, rfl⟩ := h.sound.shows hc
  obtain ⟨x₁, shows₁, later₁⟩ := shows.later h.sound later
  rw [← (Chain.Later.follows later₁).scheduler] at off ⊢
  obtain ⟨start, sound⟩ := shows₁.sound h₁
  rw [← shows₁.live]
  refine ⟨sound.sole, x₁.cache, shows₁.cache, fun w' later' => ?_⟩
  obtain ⟨x', shows', later''⟩ := shows₁.later h₁.sound later'
  have ⟨calls, tokens⟩ := Chain.Later.ahead (Chain.Later.mono later'' fun _ => id)
    (off _ shows₁.scheduler) sound
  refine ⟨x'.cache, shows'.cache, ?_, (Nat.le_add_right _ _).trans tokens⟩
  unfold Cache.calls
  rw [List.length_reverse, List.length_reverse]
  exact (Nat.le_add_right _ _).trans calls

def callsOfSolo (w : World) : Option Nat × Nat :=
  (w.caches[0]?.map (·.calls.length), (w.live 0).countP (·.isToCall))

/-- Closed while its run waits for the next load, the cache makes no more calls. -/
theorem close_stops_refreshing_solo : ∃ w₁, (moves 12 solo).close 0 = some w₁ ∧
    ∀ w', Later w₁ w' → ∃ cache', w'.caches[0]? = some cache' ∧ cache'.calls.length ≤ 1 := by
  have closes : ((moves 12 solo).close 0).map callsOfSolo = some (some 1, 0) := by decide +kernel
  have own : (moves 12 solo).caches[0]?.map (·.scheduler) = some 0 := by decide +kernel
  obtain ⟨w₁, closed, after⟩ := Option.map_eq_some_iff.mp closes
  obtain ⟨cache, hc, same⟩ := Option.map_eq_some_iff.mp own
  have reached : Reachable (moves 12 solo) := reachable_solo.later (later_moves 12 solo)
  obtain ⟨-, cache₁, hc₁, ahead⟩ := close_stops_refreshing reached hc closed
  rw [callsOfSolo, hc₁, Option.map_some, Prod.mk.injEq, Option.some.injEq] at after
  rw [same, after.1, after.2] at ahead
  refine ⟨w₁, closed, fun w' later => ?_⟩
  obtain ⟨cache', hc', calls, -⟩ := ahead w' later
  exact ⟨cache', hc', calls⟩

/-- Closed before its first run has begun, the cache goes on to call its issuer. -/
theorem closed_cache_calls : ∃ w₁ w', solo.close 0 = some w₁ ∧ Later w₁ w' ∧
    (w₁.caches[0]?.map (·.calls.length)) = some 0 ∧
    (w'.caches[0]?.map (·.calls.length)) = some 1 := by
  have closes : (solo.close 0).map (fun w => (callsOfSolo w).1) = some (some 0) := by
    decide +kernel
  have goes_on : (solo.close 0).map (fun w => (callsOfSolo (moves 12 w)).1) = some (some 1) := by
    decide +kernel
  obtain ⟨w₁, closed, before⟩ := Option.map_eq_some_iff.mp closes
  rw [closed, Option.map_some] at goes_on
  exact ⟨w₁, moves 12 w₁, closed, later_moves 12 w₁, before, Option.some.inj goes_on⟩

end World
end TokenKeeper
