import TokenKeeper.Header
import TokenKeeper.World.Pools
import TokenKeeper.World.Schedulers
/-! Opening caches, reading them, and letting them go. -/
namespace TokenKeeper.World

def openCache (w : World) (config : Config) (issuer : Issuer) :
    Except PoolError CacheId × World :=
  match w.poolFor config.pool with
  | (.error error, w) => (.error error, w)
  | (.ok p, w) =>
    let c := w.caches.length
    let (s, w) := w.addScheduler p (.refresh c)
    let cache : Cache := { config := config, issuer := issuer, scheduler := s }
    (.ok c, { w with caches := w.caches ++ [cache] }.start none s)

def close (w : World) (c : CacheId) : Option World := do
  match w.caches[c]? with
  | none => some w
  | some cache =>
    let (done, w) ← w.retire cache.scheduler
    some (if done then w.note .cacheClosed else w)

def dropCache (w : World) (c : CacheId) : Option World := do
  let w ← w.close c
  some (w.onCache c fun cache => { cache with dropped := true })

def expect (w : World) (c : CacheId) (blocking : Bool) (times : List Instant) : World :=
  { w with readers := w.readers ++ times.map fun time => ⟨c, blocking, .coming time⟩ }

def answers (w : World) (known : Nat) : List (Option AccessToken × Instant) :=
  (w.readers.drop known).map Reader.answer

def serveAll (w : World) : Option World :=
  w.await (fun w => w.readers.all Reader.isServed) none

def visit (w : World) (c : CacheId) (blocking : Bool) (times : List Instant) :
    Option (List (Option AccessToken × Instant) × World) := do
  if times.isEmpty then some ([], w)
  else
    let after ← (w.expect c blocking times).serveAll
    some (after.answers w.readers.length, after)

def read (w : World) (c : CacheId) (blocking : Bool) : Option (Option AccessToken × World) := do
  let known := w.readers.length
  let came := (w.expect c blocking [w.now]).attend known
  let after ← if came.readers.all Reader.isServed then some came else came.serveAll
  some ((after.answers known).head?.bind (·.1), after)

def forward (w : World) (c : CacheId) (headers : List Header) :
    Option (List Header × World) := do
  if headers.any Header.isAuthorization then some (headers, w.note .carriesAuthorization)
  else
    let (token, w) ← w.read c false
    let (headers, notices) := Header.attach token headers
    some (headers, w.notes notices)

end TokenKeeper.World
