import TokenKeeper.World.Await
/-! Getting pools from the registry, and using their handles. -/
namespace TokenKeeper.World

/-- The pool registered under the name of its threads, which is started if there is none. Nothing
changes if that fails. -/
def poolFor (w : World) (identity : Identity) : Except PoolError PoolId × World :=
  let threads := identity.threads
  if identity.name = "" then (.error .emptyName, w)
  else match w.pools.findIdx? fun pool => pool.registered && pool.threads == threads with
    | some p => (.ok p, w)
    | none =>
      match w.outage with
      | some source => (.error (.notStarted threads source), w)
      | none =>
        if identity.name.toList.contains '\x00' then (.error .unnamable, w)
        else
          let pool : Pool := { identity := identity, worker := .fresh w.now }
          (.ok w.pools.length, { w with pools := w.pools ++ [pool] }.note
            (.poolStarted threads identity.background))

def poolCount (w : World) : Nat := w.pools.countP (·.registered)

def keepHandle (w : World) (p : PoolId) : World :=
  w.onPool p fun pool => { pool with handles := pool.handles + 1 }

def dropHandle (w : World) (p : PoolId) : Option World :=
  seeOff w p ((w.onPool p fun pool => { pool with handles := pool.handles - 1 }).release p)

def unregister (w : World) (p : PoolId) : Option World :=
  if w.pools[p]?.any (·.registered) then
    seeOff w p ((w.onPool p fun pool => { pool with registered := false }).release p)
  else some w

/-- Drops the registry, pool by pool, in an order that is nobody's choice. -/
def dropRegistry (w : World) (order : List PoolId) : Option World := order.foldlM unregister w

def inquire (w : World) (p : PoolId) : Option World :=
  let answered := (w.pools[p]?.map (·.answered)).getD 0
  (w.submit none p .inquiry).await
    (fun w => w.pools[p]?.all fun pool => answered < pool.answered) none

def occupy (w : World) (p : PoolId) (pause : Pause) : World := w.submit none p (.guest [pause])

def workShifts (p : PoolId) (length : Span) : List (List Nat) → World → Option World
  | [], w => some w
  | shift :: rest, w => do
    let w ← w.advance length
    let next := rest.headD []
    workShifts p length rest (w.onPool p fun pool => pool.dismiss w.now (shift.drop next.length))

/-- Runs `count` blocking jobs of this length, as many at once as there can be helpers, and gives
the names of the threads they ran on, in order. -/
def block (w : World) (p : PoolId) (count : Nat) (length : Span) :
    Option (List String × World) := do
  match w.pools[p]? with
  | none => none
  | some pool =>
    let (numbers, busy) := pool.enlist w.now (min count Pool.maxHelpers)
    let shifts := Pool.shifts numbers count
    let w ← workShifts p length shifts <| w.onPool p fun pool =>
      { pool with helpers := busy.helpers, threadCount := busy.threadCount }
    some ((shifts.flatten.map pool.threadName).mergeSort fun a b => !(b < a), w)

end TokenKeeper.World
