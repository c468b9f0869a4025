import TokenKeeper.World.Reading
import TokenKeeper.World.Work
/-! How time passes. The clock stands still as long as anything can go on; workers go before
readers, and both before whoever waits outside. -/
namespace TokenKeeper.World

def move? (w : World) : Option World :=
  match w.pools.findIdx? (fun pool => pool.worker.isReady w.now) with
  | some p => some (w.work p)
  | none => (w.readers.findIdx? w.isDue).map w.attend

def nextTime? (w : World) : Option Instant :=
  (w.pools.filterMap (fun pool => pool.worker.wakes) ++ w.readers.filterMap Reader.wakes).min?

/-- Lets the world go on until nothing more happens at the moment and `stop` holds or the limit is
reached. None if that takes more than the fuel, or nothing would ever happen. -/
def awaitFrom (stop : World → Bool) (limit : Option Instant) : Nat → World → Option World
  | 0, _ => none
  | fuel+1, w =>
    match w.move? with
    | some w => awaitFrom stop limit fuel w
    | none =>
      if stop w || limit.any (fun t => decide (t ≤ w.now)) then some w
      else match (w.nextTime?.toList ++ limit.toList).min? with
        | none => none
        | some t => awaitFrom stop limit fuel { w with now := t }

/-- Steps after which a wait counts as endless. -/
def patience : Nat := Nat.pow 2 40

def await (w : World) (stop : World → Bool) (limit : Option Instant) : Option World :=
  awaitFrom stop limit patience w

def advance (w : World) (length : Span) : Option World :=
  w.await (fun _ => false) (some (w.now + length))

def grace : Span := Span.ofSecs 5

/-- Waits for a foreground pool that has begun to close since `before`. -/
def seeOff (before : World) (p : PoolId) (w : World) : Option World :=
  let closes := fun w : World => w.pools[p]?.any fun pool =>
    pool.worker.closing && !pool.identity.background
  if closes w && !closes before then
    w.await (fun w => w.pools[p]?.all fun pool => pool.worker.isGone) (some (w.now + grace))
  else some w

end TokenKeeper.World
