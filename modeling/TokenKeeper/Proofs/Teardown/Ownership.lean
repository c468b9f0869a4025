import TokenKeeper.Proofs.Teardown.SeenOff
/-! Pools end with their owners: the registry, the handles that are kept, and the schedulers that
are not shut down. A pool's end does not stop its worker at once, which goes on with what is
ready. -/
namespace TokenKeeper.World
variable {w : World}

def intervals (w : World) : Option (List (Instant × Option Instant)) :=
  w.schedulers[0]?.map (·.runs.map Run.interval)

end TokenKeeper.World
