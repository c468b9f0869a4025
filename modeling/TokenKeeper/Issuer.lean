import TokenKeeper.Clock
import TokenKeeper.Token.Fixed
import TokenKeeper.Error
/-! Where tokens come from. An issuer is known by what each call of it does. -/
namespace TokenKeeper

inductive Pause where
  /-- Lets go of the worker. -/
  | rest (length : Span)
  /-- What a rest becomes once its end is fixed. -/
  | till (due : Instant)
  /-- Keeps hold of the worker. -/
  | hold (length : Span)
deriving DecidableEq

inductive Reply where
  | resource (resource : Resource)
  | failure (cause : String)
  | panic
deriving DecidableEq

def Reply.token : Reply → Except LoadError (AccessToken × UInt64)
  | resource r => match r.usable with
    | some token => .ok (token, r.lifetime)
    | none => .error .noToken
  | failure cause => .error (.failed cause)
  | panic => .error .panicked

structure Call where
  pauses : List Pause := []
  reply : Reply
deriving DecidableEq

abbrev Issuer := Nat → Call

/-- First holds the worker, and then rests if there is a rest, be it of no length. -/
def Call.after (hold : Span) (rest : Option Span) (reply : Reply) : Call where
  pauses := .hold hold :: (rest.map .rest).toList
  reply := reply

namespace Issuer

def fixed (issuer : FixedIssuer) : Issuer := fun _ => { reply := .resource issuer.resource }

/-- One call after the other; then all over again, or failures. -/
def scripted (calls : List Call) (repeats : Bool) : Issuer := fun n =>
  let n := if repeats then n % calls.length else n
  calls[n]?.getD { reply := .failure "script ended" }

def replyOfBody (body : List UInt8) : Reply :=
  match Resource.ofJson body with
  | .ok resource => .resource resource
  | .error _ => .failure "bad response body"

end Issuer
end TokenKeeper
