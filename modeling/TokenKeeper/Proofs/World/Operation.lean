import TokenKeeper.World.Caches
/-! What can be asked of a world from outside, and what shows from there. -/
namespace TokenKeeper

inductive Operation where
  | openCache (config : Config) (issuer : Issuer)
  | read (c : CacheId) (blocking : Bool)
  /-- Readers come after these delays, and all of them are waited for. -/
  | visit (c : CacheId) (blocking : Bool) (delays : List Span)
  | forward (c : CacheId) (headers : List Header)
  | close (c : CacheId)
  | dropCache (c : CacheId)
  | advance (length : Span)
  | openScheduler (identity : Identity) (program : Nat → List Action)
  | start (s : SchedulerId)
  | schedule (s : SchedulerId) (delay : Span)
  | shutdown (s : SchedulerId)
  | dropScheduler (s : SchedulerId)
  /-- Keeps a handle on a pool whose worker has answered. -/
  | takeHandle (identity : Identity)
  | dropHandle (p : PoolId)
  | occupy (p : PoolId) (pause : Pause)
  | block (p : PoolId) (count : Nat) (length : Span)
  | dropRegistry (order : List PoolId)
  | setOutage (source : Option String)

inductive Answer where
  | done
  | made (id : Nat)
  | refused (error : PoolError)
  | flag (value : Bool)
  | got (token : Option AccessToken)
  | served (answers : List (Option AccessToken × Instant))
  | sent (headers : List Header)
  | names (names : List String)
deriving DecidableEq

namespace World

/-- None if it never returns. -/
def operate (w : World) : Operation → Option (Answer × World)
  | .openCache config issuer =>
    match w.openCache config issuer with
    | (.ok c, w) => some (.made c, w)
    | (.error error, w) => some (.refused error, w)
  | .read c blocking => (w.read c blocking).map fun r => (.got r.1, r.2)
  | .visit c blocking delays =>
    (w.visit c blocking (delays.map (w.now + ·))).map fun r => (.served r.1, r.2)
  | .forward c headers => (w.forward c headers).map fun r => (.sent r.1, r.2)
  | .close c => (w.close c).map fun w => (.done, w)
  | .dropCache c => (w.dropCache c).map fun w => (.done, w)
  | .advance length => (w.advance length).map fun w => (.done, w)
  | .openScheduler identity program =>
    match w.poolFor identity with
    | (.ok p, w) =>
      let (s, w) := w.addScheduler p (.script program)
      some (.made s, w)
    | (.error error, w) => some (.refused error, w)
  | .start s => some (.done, w.start none s)
  | .schedule s delay => some (.done, w.schedule none s delay)
  | .shutdown s => (w.retire s).map fun r => (.flag r.1, r.2)
  | .dropScheduler s => (w.dropScheduler s).map fun w => (.done, w)
  | .takeHandle identity =>
    match w.poolFor identity with
    | (.ok p, w) => ((w.keepHandle p).inquire p).map fun w => (.made p, w)
    | (.error error, w) => some (.refused error, w)
  | .dropHandle p => (w.dropHandle p).map fun w => (.done, w)
  | .occupy p pause => some (.done, w.occupy p pause)
  | .block p count length => (w.block p count length).map fun r => (.names r.1, r.2)
  | .dropRegistry order => (w.dropRegistry order).map fun w => (.done, w)
  | .setOutage source => some (.done, { w with outage := source })

end World

/-- What shows of a world besides the texts of its tokens. -/
structure Sight where
  now : Instant
  log : List (Instant × Notice)
  /-- Begin and end of each call, by cache. -/
  fetches : List (List (Instant × Option Instant))
  /-- Begin and end of each run, by scheduler. -/
  runs : List (List (Instant × Option Instant))
  ready : List Bool
  /-- The status at any time of each current token, and when a refresh of it is due. -/
  tokens : List (Option ((Instant → Status) × Option Instant))

def World.sight (w : World) : Sight where
  now := w.now
  log := w.log
  fetches := w.caches.map Cache.intervals
  runs := w.schedulers.map fun scheduler => scheduler.runs.map Run.interval
  ready := w.caches.map (·.ready)
  tokens := w.caches.map fun cache =>
    cache.current.map fun issued => (issued.statusAt, issued.refreshAt)

def Header.redact (header : Header) : Header :=
  if header.sensitive then { header with value := "" } else header

def Answer.redact : Answer → Answer
  | got token => .got (token.map fun _ => ⟨""⟩)
  | served answers => .served (answers.map fun a => (a.1.map fun _ => ⟨""⟩, a.2))
  | sent headers => .sent (headers.map Header.redact)
  | answer => answer

/-- What shows of a run, one operation after the other. It ends where one never returns. -/
def World.record (w : World) : List Operation → List (Answer × Sight)
  | [] => []
  | operation :: rest =>
    match w.operate operation with
    | none => []
    | some (answer, w) => (answer.redact, w.sight) :: w.record rest

end TokenKeeper
