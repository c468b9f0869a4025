/-! Why a pool cannot be had, and why a load brought no token. -/
namespace TokenKeeper

inductive PoolError where
  | emptyName
  /-- No runtime could be started for the pool whose threads are named like this. -/
  | notStarted (threads source : String)
  /-- No thread can have such a name. -/
  | unnamable
deriving DecidableEq

def PoolError.message : PoolError → Option String
  | .emptyName => some "invalid argument: worker pool name prefix cannot be empty"
  | .notStarted threads _ => some ("unable to start worker pool `" ++ threads ++ "`")
  | .unnamable => none

def PoolError.source : PoolError → Option String
  | .notStarted _ source => some source
  | .emptyName | .unnamable => none

inductive LoadError where
  /-- The issuer failed, and says why. -/
  | failed (cause : String)
  | panicked
  | noToken
deriving DecidableEq

namespace LoadError

def message : LoadError → String
  | failed _ | panicked => "error fetching token from issuer"
  | noToken => "issuer response did not contain an access token"

def source : LoadError → Option String
  | failed cause => some cause
  | panicked => some "<panic>"
  | noToken => none

def chain (error : LoadError) : List String := error.message :: error.source.toList

end LoadError
end TokenKeeper
