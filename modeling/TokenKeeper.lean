import TokenKeeper.Grant.Exchange
import TokenKeeper.World.Caches
import TokenKeeper.Proofs.Chain.Alone
import TokenKeeper.Proofs.Chain.OnTime
import TokenKeeper.Proofs.Chain.Answered
import TokenKeeper.Proofs.Operations
import TokenKeeper.Proofs.Chain.Closed
import TokenKeeper.Proofs.World.Registry
import TokenKeeper.Proofs.Docket.Fate
import TokenKeeper.Proofs.Docket.InFlight
import TokenKeeper.Proofs.Chain.Dropped
import TokenKeeper.Proofs.Chain.KeepsAhead
import TokenKeeper.Proofs.Secrecy.Log
import TokenKeeper.Proofs.Sharing.Undisturbed
import TokenKeeper.Proofs.Token.ReadBack
import TokenKeeper.Proofs.Grant.Requests
import TokenKeeper.Proofs.Registry.Failures
import TokenKeeper.Proofs.Succession.OneByOne
import TokenKeeper.Proofs.Token.Times
import TokenKeeper.Proofs.World.Forwarding
import TokenKeeper.Proofs.Token.Response
import TokenKeeper.Proofs.Teardown.Ownership
import TokenKeeper.Proofs.Text.Truncated
import TokenKeeper.Proofs.Grant.Outcomes
import TokenKeeper.Proofs.Secrecy.Formatting
import TokenKeeper.Proofs.Trace.HandedOver
import TokenKeeper.Proofs.Trace.Acts
import TokenKeeper.Proofs.Trace.Lengths
