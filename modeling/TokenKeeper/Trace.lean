import TokenKeeper.Clock
import TokenKeeper.Error
/-! What the library tells about its work. -/
namespace TokenKeeper

inductive Level where
  | error
  | warn
  | info
  | debug
  | trace
deriving DecidableEq

namespace Level

def rank : Level → Nat
  | error => 1
  | warn => 2
  | info => 3
  | debug => 4
  | trace => 5

end Level

inductive Notice where
  | poolStarted (threads : String) (background : Bool)
  | poolClosing (threads : String)
  | submitted (threads : String)
  | startRepeated
  | startIgnored
  | scheduled (threads : String) (delay : Span)
  | scheduleIgnored
  | runDropped
  | schedulerClosed (threads : String)
  | loading
  | cacheGone
  | received (lifetime refreshDelay : Span)
  | loadFailed (error : LoadError) (delay : Span)
  | nextLoad (delay : Span)
  | servingExpired (lifetime : Span)
  | waitElapsed (maxWait : Span)
  | cacheClosed
  | carriesAuthorization
  | noTokenAvailable
  | tokenOmitted
  /-- An exchange with the authority begins. -/
  | exchange (tokenUrl grantType clientId : String)
  | requesting
  | responded (status : Nat)
  | parsed (hasToken : Bool) (lifetime : Nat)
  | exchangeFailed (error : String)
deriving DecidableEq

inductive Value where
  | number (n : Nat)
  | flag (b : Bool)
  | text (s : String)
  | texts (ss : List String)
deriving DecidableEq

namespace Notice

def level : Notice → Level
  | waitElapsed _ | exchangeFailed _ => .error
  | loadFailed .. | tokenOmitted => .warn
  | received .. | cacheClosed | exchange .. => .info
  | poolStarted .. | poolClosing _ | startRepeated | schedulerClosed _ | loading | nextLoad _
  | servingExpired _ | noTokenAvailable | responded _ | parsed .. => .debug
  | submitted _ | startIgnored | scheduled .. | scheduleIgnored | runDropped | cacheGone
  | carriesAuthorization | requesting => .trace

def span? : Notice → Option String
  | exchange .. => some "fetch_token"
  | _ => none

def message? : Notice → Option String
  | poolStarted .. => some "started worker pool"
  | poolClosing _ => some "shutting down worker pool"
  | submitted _ => some "job submitted"
  | startRepeated => some "scheduler already started, ignoring"
  | startIgnored => some "scheduler shut down, ignoring start"
  | scheduled .. => some "job scheduled"
  | scheduleIgnored => some "scheduler shut down, ignoring schedule request"
  | runDropped => some "pending run dropped by shutdown"
  | schedulerClosed _ => some "scheduler shut down"
  | loading => some "requesting new token"
  | cacheGone => some "token cache dropped, not refreshing"
  | received .. => some "received new token"
  | loadFailed .. => some "error loading token, will retry"
  | nextLoad _ => some "next load scheduled"
  | servingExpired _ => some "serving expired token, issuer has not provided a new one"
  | waitElapsed _ => some "could not load token within max wait, continuing without token"
  | cacheClosed => some "token cache closed, no further refreshes"
  | carriesAuthorization => some "request already carries authorization, leaving it in place"
  | noTokenAvailable => some "no access token available, sending request unauthenticated"
  | tokenOmitted => some "access token contains bytes not allowed in a header, omitting"
  | requesting => some "requesting token from authority"
  | responded _ => some "received token response from authority"
  | parsed .. => some "parsed token response"
  | exchange .. | exchangeFailed _ => none

def fields : Notice → List (String × Value)
  | poolStarted threads background => [("pool", .text threads), ("background", .flag background)]
  | poolClosing threads | submitted threads | schedulerClosed threads => [("pool", .text threads)]
  | scheduled threads delay =>
    [("pool", .text threads), ("delay_ms", .number delay.loggedMillis)]
  | received lifetime refreshDelay =>
    [("lifetime_secs", .number lifetime.secs), ("refresh_delay_secs", .number refreshDelay.secs)]
  | loadFailed error delay =>
    [("error", .texts error.chain), ("delay_ms", .number delay.loggedMillis)]
  | nextLoad delay => [("delay_ms", .number delay.loggedMillis)]
  | servingExpired lifetime => [("lifetime_secs", .number lifetime.secs)]
  | waitElapsed maxWait => [("max_wait_ms", .number maxWait.loggedMillis)]
  | exchange tokenUrl grantType clientId =>
    [("token_url", .text tokenUrl), ("credentials.grant_type", .text grantType),
      ("credentials.client_id", .text clientId)]
  | responded status => [("response.status", .number status)]
  | parsed hasToken lifetime =>
    [("has_access_token", .flag hasToken), ("lifetime_secs", .number lifetime)]
  | exchangeFailed error => [("error", .text error)]
  | startRepeated | startIgnored | scheduleIgnored | runDropped | loading | cacheGone | cacheClosed
  | carriesAuthorization | noTokenAvailable | tokenOmitted | requesting => []

end Notice

/-- The least severe level that is kept; none keeps nothing. -/
abbrev Verbosity := Option Level

def Verbosity.keeps (verbosity : Verbosity) (notice : Notice) : Bool :=
  verbosity.any fun least => notice.level.rank ≤ least.rank

end TokenKeeper
