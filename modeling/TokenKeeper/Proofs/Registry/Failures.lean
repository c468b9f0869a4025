import Mathlib.Data.Finset.Card
import TokenKeeper.Proofs.Operations
import TokenKeeper.Proofs.Registry.Roster
import TokenKeeper.Proofs.Sharing.Opening
/-! Requests to the registry that fail, for whatever reason. Each leaves the world as it was, so the
others go on as if it had not been made; and what the registry holds is what was asked for with
success. -/
namespace TokenKeeper

namespace Registry

inductive Request where
  | pool (identity : Identity)
  | cache (config : Config) (issuer : Issuer)

def Request.identity : Request → Identity
  | pool identity => identity
  | cache config _ => config.pool

def Request.threads (request : Request) : String := request.identity.threads

structure Call where
  request : Request
  outcome : Except PoolError PoolId

def Call.succeeds (call : Call) : Bool := call.outcome.isOk

end Registry

open Registry

namespace World
variable {w w' first : World} {calls : List Registry.Call}

def ask (w : World) : Request → Except PoolError PoolId × World
  | .pool identity => w.poolFor identity
  | .cache config issuer => ((w.poolFor config.pool).1, (w.openCache config issuer).2)

theorem openCache_refused (w : World) (config : Config) (issuer : Issuer) (error : PoolError) :
    (w.openCache config issuer).1 = .error error ↔ (w.poolFor config.pool).1 = .error error := by
  unfold openCache
  split
  next found => rw [found]
  next found => simp [found]

theorem Sound.openCache_works (h : w.Sound) {config : Config} {issuer : Issuer} {c : CacheId}
    (opens : (w.openCache config issuer).1 = .ok c) :
    ∃ p cache scheduler, (w.poolFor config.pool).1 = .ok p ∧
      (w.openCache config issuer).2.caches[c]? = some cache ∧ cache.config = config ∧
      (w.openCache config issuer).2.schedulers[cache.scheduler]? = some scheduler ∧
      scheduler.pool = some p := by
  obtain ⟨rfl, p, on⟩ := h.opensOn (Prod.ext opens rfl)
  obtain ⟨opened, -, had, -⟩ := on.pool
  refine ⟨p, { config := config, issuer := issuer, scheduler := w.schedulers.length },
    { job := .refresh w.caches.length, pool := some p, started := true, accepted := 1 },
    by rw [had], ?_, rfl, ?_, rfl⟩
  · rw [on.caches]
    exact List.getElem?_concat_length
  · rw [on.schedulers]
    exact List.getElem?_concat_length

/-- A run of the registry's life: requests, and anything else in between. -/
inductive Calls (first : World) : List Registry.Call → World → Prop where
  | nil : Calls first [] first
  | call {calls : List Registry.Call} {w : World} (before : Calls first calls w)
      (request : Request) :
      Calls first (calls ++ [⟨request, (w.ask request).1⟩]) (w.ask request).2
  | unasked {calls : List Registry.Call} {w w' : World} (before : Calls first calls w)
      (step : Unasked w w') : Calls first calls w'

theorem ask_error {request : Request} {error : PoolError}
    (h : (w.ask request).1 = .error error) : (w.ask request).2 = w := by
  cases request with
  | pool identity => exact poolFor_error (Prod.ext h rfl)
  | cache config issuer =>
    have refused := (openCache_refused w config issuer error).mpr h
    exact openCache_error (Prod.ext refused rfl)

theorem ask_later (w : World) (request : Request) : Later w (w.ask request).2 := by
  cases request with
  | pool identity => exact poolFor_later rfl
  | cache config issuer => exact openCache_later rfl

theorem Calls.later (h : Calls first calls w) : Later first w := by
  induction h with
  | nil => exact .refl
  | call before request ih => exact ih.trans (ask_later _ request)
  | unasked before step ih => exact ih.tail step.step

/-- A request that fails leaves no trace: what comes after it comes without it. -/
theorem Calls.drop (h : Calls first calls w) :
    ∀ before call after, calls = before ++ call :: after → call.succeeds = false →
      Calls first (before ++ after) w := by
  induction h with
  | nil =>
    intro before call after nothing
    simp at nothing
  | @call calls w made request ih =>
    intro before call after same failed
    obtain rfl | ⟨others, last, rfl⟩ := List.eq_nil_or_concat after
    case inl =>
      obtain ⟨rfl, alone⟩ := List.append_inj' same rfl
      obtain rfl := (List.cons.inj alone).1
      obtain ⟨error, refused⟩ : ∃ error, (w.ask request).1 = .error error := by
        cases outcome : (w.ask request).1 with
        | error error => exact ⟨error, rfl⟩
        | ok p => simp [Call.succeeds, outcome, Except.isOk, Except.toBool] at failed
      rw [List.append_nil, ask_error refused]
      exact made
    case inr =>
      rw [List.concat_eq_append, ← List.cons_append, ← List.append_assoc] at same
      obtain ⟨earlier, alone⟩ := List.append_inj' same rfl
      rw [List.concat_eq_append, ← List.append_assoc, ← alone]
      exact (ih before call others earlier failed).call request
  | unasked made step ih =>
    intro before call after same failed
    exact (ih before call after same failed).unasked step

theorem roster_poolFor {identity : Identity} {p : PoolId} (h : w.poolFor identity = (.ok p, w')) :
    (∃ held : Identity, w.roster[p]? = some (held, true) ∧ held.threads = identity.threads ∧
        w' = w) ∨
      (∀ entry ∈ w.roster, entry.2 = true → entry.1.threads ≠ identity.threads) ∧
        p = w.roster.length ∧ w'.roster = w.roster ++ [(identity, true)] := by
  unfold poolFor at h
  dsimp only at h
  rw [findIdx?_roster] at h
  split at h
  · cases h
  · split at h
    · rename_i found
      cases h
      obtain ⟨bound, here, -⟩ := List.findIdx?_eq_some_iff_getElem.mp found
      rw [Bool.and_eq_true, beq_iff_eq] at here
      refine .inl ⟨w.roster[p].1, ?_, here.2, rfl⟩
      rw [List.getElem?_eq_getElem bound, ← here.1]
    · rename_i none_there
      split at h
      · cases h
      · split at h
        · cases h
        · cases h
          refine .inr ⟨fun entry member held same => ?_, by simp [roster], ?_⟩
          · have missed := List.findIdx?_eq_none_iff.mp none_there entry member
            simp [held, same] at missed
          · rw [roster_note]
            simp [roster]

theorem roster_ask {request : Request} {p : PoolId} (had : (w.ask request).1 = .ok p) :
    ∃ opened, w.poolFor request.identity = (.ok p, opened) ∧
      (w.ask request).2.roster = opened.roster := by
  cases request with
  | pool identity => exact ⟨_, Prod.ext had rfl, rfl⟩
  | cache config issuer =>
    obtain ⟨opened, got⟩ : ∃ opened, w.poolFor config.pool = (.ok p, opened) :=
      ⟨_, Prod.ext had rfl⟩
    refine ⟨opened, got, ?_⟩
    have opens : (w.openCache config issuer).2 =
        (opened.withCache p config issuer).start none opened.schedulers.length := by
      unfold openCache
      rw [got]
      rfl
    rw [show (w.ask (.cache config issuer)).2 = (w.openCache config issuer).2 from rfl, opens,
      roster_asked (start_asks _ _)]
    rfl

/-- The registry holds a pool for each name of threads that was asked for with success, and no
other. -/
structure Ledger (calls : List Registry.Call) (w : World) : Prop where
  held : ∀ entry ∈ w.roster, entry.2 = true
  apart : (w.roster.map (·.1.threads)).Nodup
  given : ∀ call ∈ calls, ∀ p, call.outcome = .ok p → ∃ identity : Identity,
    w.roster[p]? = some (identity, true) ∧ identity.threads = call.request.threads
  asked : ∀ entry ∈ w.roster, ∃ call ∈ calls, call.succeeds = true ∧
    call.request.threads = entry.1.threads

namespace Ledger

theorem new (now : Instant) (verbosity : Verbosity) (outage : Option String) :
    Ledger [] { now := now, verbosity := verbosity, outage := outage } :=
  ⟨nofun, List.nodup_nil, nofun, nofun⟩

theorem of_roster (h : Ledger calls w) (roster : w'.roster = w.roster) : Ledger calls w' := by
  obtain ⟨held, apart, given, asked⟩ := h
  rw [← roster] at held apart given asked
  exact ⟨held, apart, given, asked⟩

theorem refused (h : Ledger calls w) (request : Request) (error : PoolError) :
    Ledger (calls ++ [⟨request, .error error⟩]) w := by
  refine ⟨h.held, h.apart, fun call member => ?_, fun entry member => ?_⟩
  · obtain old | new := List.mem_append.mp member
    · exact h.given call old
    · rw [List.mem_singleton.mp new]
      exact nofun
  · obtain ⟨call, old, rest⟩ := h.asked entry member
    exact ⟨call, List.mem_append_left _ old, rest⟩

theorem again (h : Ledger calls w) {request : Request} {p : PoolId} {identity : Identity}
    (there : w.roster[p]? = some (identity, true)) (same : identity.threads = request.threads) :
    Ledger (calls ++ [⟨request, .ok p⟩]) w := by
  refine ⟨h.held, h.apart, fun call member => ?_, fun entry member => ?_⟩
  · obtain old | new := List.mem_append.mp member
    · exact h.given call old
    · rw [List.mem_singleton.mp new]
      rintro q ⟨⟩
      exact ⟨identity, there, same⟩
  · obtain ⟨call, old, rest⟩ := h.asked entry member
    exact ⟨call, List.mem_append_left _ old, rest⟩

theorem opened (h : Ledger calls w) {request : Request}
    (new : ∀ entry ∈ w.roster, entry.1.threads ≠ request.threads)
    (roster : w'.roster = w.roster ++ [(request.identity, true)]) :
    Ledger (calls ++ [⟨request, .ok w.roster.length⟩]) w' := by
  refine ⟨?_, ?_, fun call member => ?_, fun entry member => ?_⟩
  · rw [roster]
    rintro entry member
    obtain old | latest := List.mem_append.mp member
    · exact h.held entry old
    · rw [List.mem_singleton.mp latest]
  · rw [roster, List.map_append]
    refine h.apart.append (List.nodup_singleton _) fun threads old latest => ?_
    obtain ⟨entry, member, rfl⟩ := List.mem_map.mp old
    exact new entry member (List.mem_singleton.mp latest)
  · rw [roster]
    obtain old | latest := List.mem_append.mp member
    · intro p given
      obtain ⟨identity, there, same⟩ := h.given call old p given
      refine ⟨identity, ?_, same⟩
      rw [List.getElem?_append_left (List.getElem?_eq_some_iff.mp there).1, there]
    · rw [List.mem_singleton.mp latest]
      rintro p ⟨⟩
      exact ⟨request.identity, List.getElem?_concat_length, rfl⟩
  · rw [roster] at member
    obtain old | latest := List.mem_append.mp member
    · obtain ⟨call, earlier, rest⟩ := h.asked entry old
      exact ⟨call, List.mem_append_left _ earlier, rest⟩
    · rw [List.mem_singleton.mp latest]
      exact ⟨_, List.mem_append_right _ (List.mem_singleton_self _), rfl, rfl⟩

theorem call (h : Ledger calls w) (request : Request) :
    Ledger (calls ++ [⟨request, (w.ask request).1⟩]) (w.ask request).2 := by
  cases outcome : (w.ask request).1 with
  | error error =>
    rw [ask_error outcome]
    exact h.refused request error
  | ok p =>
    obtain ⟨after, had, roster⟩ := roster_ask outcome
    obtain ⟨identity, there, same, rfl⟩ | ⟨none_there, rfl, more⟩ := roster_poolFor had
    · exact (h.again there same).of_roster roster
    · exact h.opened (fun entry member => none_there entry member (h.held entry member))
        (roster.trans more)

theorem count (h : Ledger calls w) :
    w.poolCount = ((calls.filter (·.succeeds)).map (·.request.threads)).toFinset.card := by
  have all : w.poolCount = w.roster.length := by
    rw [poolCount, roster, List.length_map, List.countP_eq_length]
    exact fun pool member => h.held _ (List.mem_map_of_mem member)
  have names : (w.roster.map (·.1.threads)).toFinset =
      ((calls.filter (·.succeeds)).map (·.request.threads)).toFinset := by
    ext threads
    simp only [List.mem_toFinset, List.mem_map, List.mem_filter]
    constructor
    · rintro ⟨entry, member, rfl⟩
      obtain ⟨call, made, succeeds, same⟩ := h.asked entry member
      exact ⟨call, ⟨made, succeeds⟩, same⟩
    · rintro ⟨⟨request, outcome⟩, ⟨made, succeeds⟩, rfl⟩
      cases outcome with
      | error => exact absurd succeeds Bool.false_ne_true
      | ok p =>
        obtain ⟨identity, there, same⟩ := h.given _ made p rfl
        exact ⟨_, List.mem_of_getElem? there, same⟩
  rw [← names, List.toFinset_card_of_nodup h.apart, List.length_map, all]

theorem serves (h : Ledger calls w) {call : Registry.Call} (made : call ∈ calls) {p : PoolId}
    (given : call.outcome = .ok p) {identity : Identity} (named : identity.name ≠ "")
    (same : identity.threads = call.request.threads) : w.poolFor identity = (.ok p, w) := by
  obtain ⟨held, there, threads⟩ := h.given call made p given
  obtain ⟨bound, entry⟩ := List.getElem?_eq_some_iff.mp there
  have found : w.roster.findIdx? (fun entry => entry.2 && entry.1.threads == identity.threads) =
      some p := by
    refine List.findIdx?_eq_some_iff_getElem.mpr ⟨bound, by simp [entry, threads, same], ?_⟩
    intro q before
    simp only [Bool.and_eq_true, beq_iff_eq, not_and]
    intro _ twice
    have here : (w.roster.map (·.1.threads))[q]? = (w.roster.map (·.1.threads))[p]? := by
      rw [List.getElem?_map, List.getElem?_map, there,
        List.getElem?_eq_getElem (before.trans bound), Option.map_some, Option.map_some, twice,
        same, threads]
    have bound' : q < (w.roster.map (·.1.threads)).length := by
      simpa using before.trans bound
    exact absurd ((List.getElem?_inj bound' h.apart).mp here) before.ne
  unfold poolFor
  simp only [named, if_false, findIdx?_roster, found]

end Ledger

section New
variable {now : Instant} {verbosity : Verbosity} {outage : Option String}

theorem Calls.reachable
    (h : Calls { now := now, verbosity := verbosity, outage := outage } calls w) : Reachable w :=
  ⟨now, verbosity, .head (.setOutage outage) h.later⟩

theorem Calls.ledger
    (h : Calls { now := now, verbosity := verbosity, outage := outage } calls w) :
    Ledger calls w := by
  induction h with
  | nil => exact .new now verbosity outage
  | call before request ih => exact ih.call request
  | unasked before step ih => exact ih.of_roster (step.roster before.reachable.sound)

end New

theorem Calls.roster_grows (h : Calls first calls w) (sound : first.Sound) :
    ∃ more, w.roster = first.roster ++ more := by
  induction h with
  | nil => exact ⟨[], (List.append_nil _).symm⟩
  | @call calls w before request ih =>
    obtain ⟨more, roster⟩ := ih
    cases outcome : (w.ask request).1 with
    | error error =>
      rw [ask_error outcome]
      exact ⟨more, roster⟩
    | ok p =>
      obtain ⟨after, had, same⟩ := roster_ask outcome
      obtain ⟨identity, -, -, rfl⟩ | ⟨-, -, larger⟩ := roster_poolFor had
      · exact ⟨more, same.trans roster⟩
      · exact ⟨more ++ [(request.identity, true)],
          by rw [same, larger, roster, List.append_assoc]⟩
  | unasked before step ih =>
    rw [step.roster (sound.later before.later)]
    exact ih

/-- Requests to a new registry, in any order and whatever goes on between them. One that fails
leaves the world as it is, and all others have the outcomes that they have without it; the registry
counts the names of threads that were asked for with success, gives out the same pool for each of
them from then on, to callers and to caches, and keeps it as it is. -/
theorem registry_survives_failures {now : Instant} {verbosity : Verbosity}
    {outage : Option String}
    (h : Calls { now := now, verbosity := verbosity, outage := outage } calls w) :
    (∀ request error, (w.ask request).1 = .error error → (w.ask request).2 = w) ∧
    (∀ before call after, calls = before ++ call :: after → call.succeeds = false →
      Calls { now := now, verbosity := verbosity, outage := outage } (before ++ after) w) ∧
    w.poolCount = ((calls.filter (·.succeeds)).map (·.request.threads)).toFinset.card ∧
    (∀ call ∈ calls, ∀ p, call.outcome = .ok p → ∀ identity : Identity, identity.name ≠ "" →
      identity.threads = call.request.threads → w.poolFor identity = (.ok p, w)) ∧
    (∀ config issuer c, (w.openCache config issuer).1 = .ok c → ∃ p cache scheduler,
      (w.poolFor config.pool).1 = .ok p ∧
      (w.openCache config issuer).2.caches[c]? = some cache ∧ cache.config = config ∧
      (w.openCache config issuer).2.schedulers[cache.scheduler]? = some scheduler ∧
      scheduler.pool = some p) ∧
    ∀ more w', Calls w more w' → ∀ (p : PoolId) (pool : Pool), w.pools[p]? = some pool →
      ∃ pool' : Pool, w'.pools[p]? = some pool' ∧ pool'.identity = pool.identity ∧
        pool'.registered = true ∧ pool'.worker.closing = false := by
  have reachable := h.reachable
  refine ⟨fun _ _ => ask_error, h.drop, h.ledger.count,
    fun call made p given identity named same => h.ledger.serves made given named same,
    fun config issuer c => reachable.sound.openCache_works, fun more w' later p pool hp => ?_⟩
  have held : w.roster[p]? = some (pool.identity, true) := by
    have entry : w.roster[p]? = some (pool.identity, pool.registered) := by
      rw [roster, List.getElem?_map, hp, Option.map_some]
    rw [entry, ← h.ledger.held _ (List.mem_of_getElem? entry)]
  obtain ⟨new, grown⟩ := later.roster_grows reachable.sound
  have after : w'.roster[p]? = some (pool.identity, true) := by
    rw [grown, List.getElem?_append_left (List.getElem?_eq_some_iff.mp held).1, held]
  rw [roster, List.getElem?_map, Option.map_eq_some_iff] at after
  obtain ⟨pool', hp', entry⟩ := after
  obtain ⟨identity, registered⟩ := Prod.mk.inj entry
  refine ⟨pool', hp', identity, registered, ?_⟩
  exact (reachable.later later.later).sound.open_of_kept hp' (by simp [Pool.isKept, registered])

/-- Of three requests one succeeds; it counts, and its pool is given out again. -/
theorem registry_survives_failures_thrice : ∃ w, Calls {}
      [⟨.pool ⟨"", true⟩, .error .emptyName⟩, ⟨.pool ⟨"a", true⟩, .ok 0⟩,
        ⟨.cache { pool := ⟨"b\x00", false⟩ } (.fixed ⟨⟨"token"⟩, 30⟩), .error .unnamable⟩] w ∧
    w.poolCount = 1 ∧ w.poolFor ⟨"a", true⟩ = (.ok 0, w) := by
  have empty : Calls ({} : World) [] {} := .nil
  have made : Calls ({} : World)
      [⟨.pool ⟨"", true⟩, .error .emptyName⟩, ⟨.pool ⟨"a", true⟩, .ok 0⟩,
        ⟨.cache { pool := ⟨"b\x00", false⟩ } (.fixed ⟨⟨"token"⟩, 30⟩), .error .unnamable⟩] _ :=
    ((empty.call (.pool ⟨"", true⟩)).call (.pool ⟨"a", true⟩)).call
      (.cache { pool := ⟨"b\x00", false⟩ } (.fixed ⟨⟨"token"⟩, 30⟩))
  obtain ⟨-, -, count, serves, -⟩ := registry_survives_failures made
  exact ⟨_, made, count, serves _ (List.mem_cons_of_mem _ List.mem_cons_self) 0 rfl ⟨"a", true⟩
    (by decide) rfl⟩

end World
end TokenKeeper
