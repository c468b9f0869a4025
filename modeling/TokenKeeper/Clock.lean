/-! Time is counted in nanoseconds. Instants are counted from the earliest moment the monotonic
clock can hold, so every instant is a natural number and the clock's range is one upper bound. -/
namespace TokenKeeper

abbrev Span := Nat

namespace Span

def ofSecs (n : Nat) : Span := n * 1000000000

def ofMillis (n : Nat) : Span := n * 1000000

def secs (d : Span) : Nat := d / 1000000000

def subsec (d : Span) : Nat := d % 1000000000

def millis (d : Span) : Nat := d / 1000000

/-- No rest is longer than thirty years of 365 days. -/
def longestRest : Span := ofSecs (30 * 365 * 86400)

/-- A log field holds 64 bits, so the whole milliseconds are cut to them. -/
def loggedMillis (d : Span) : Nat := millis d % Nat.pow 2 64

end Span

abbrev Instant := Nat

namespace Instant

/-- The first moment beyond the clock, whose seconds are signed 64-bit numbers. -/
def limit : Instant := Span.ofSecs (Nat.pow 2 64)

/-- The clock reads a million seconds when a world begins. -/
def start : Instant := Span.ofSecs (Nat.pow 2 63 + 1000000)

def later? (t : Instant) (d : Span) : Option Instant :=
  if t + d < limit then some (t + d) else none

def earlier? (t : Instant) (d : Span) : Option Instant :=
  if d ≤ t then some (t - d) else none

/-- When a rest that begins at `t` ends. A longer one ends when the longest rest would. -/
def afterRest (t : Instant) (length : Span) : Instant := t + min length Span.longestRest

def since (t s : Instant) : Span := t - s

end Instant
end TokenKeeper
