import TokenKeeper.World
/-! How readers get their tokens. A reader waits only if there is no token yet, and then until
there is one or its time is up. -/
namespace TokenKeeper.World

def onReader (w : World) (i : Nat) (f : Reader → Reader) : World :=
  { w with readers := w.readers.modify i f }

def noteExpired (w : World) (reader : Reader) (issued : Issued) : World :=
  if reader.blocking && issued.statusAt w.now == .expired then
    w.note (.servingExpired issued.lifetime)
  else w

def serve (w : World) (i : Nat) (reader : Reader) (cache : Cache) (asked : Instant) : World :=
  let w := if reader.sees cache then w else w.note (.waitElapsed cache.config.maxWait)
  w.onReader i fun r =>
    { r with stage := .served asked w.now (cache.current.map (·.token)) }

/-- The reader comes, and is served or begins to wait. Who does not block its thread cannot wait for
no time at all. -/
def arrive (w : World) (i : Nat) (reader : Reader) (cache : Cache) : World :=
  match cache.current with
  | some issued =>
    (w.noteExpired reader issued).onReader i fun r =>
      { r with stage := .served w.now w.now (some issued.token) }
  | none =>
    if !reader.blocking && cache.config.maxWait = 0 then w.serve i reader cache w.now
    else w.onReader i fun r => { r with stage := .waiting w.now (w.now + cache.config.maxWait) }

def attend (w : World) (i : Nat) : World :=
  match w.readers[i]? with
  | none => w
  | some reader =>
    match w.caches[reader.cache]? with
    | none => w
    | some cache =>
      match reader.stage with
      | .coming _ => w.arrive i reader cache
      | .waiting asked _ => w.serve i reader cache asked
      | .served .. => w

def isDue (w : World) (reader : Reader) : Bool :=
  w.caches[reader.cache]?.any fun cache => reader.isDue cache w.now

end TokenKeeper.World
