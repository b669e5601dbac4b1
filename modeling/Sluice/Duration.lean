/-!
# Durations

A duration is a whole number of nanoseconds. Its text uses the largest of `s`,
`ms`, `µs` and `ns` in which the whole part is not zero, followed by the
decimal fraction without trailing zeros.
-/

namespace Sluice

structure Duration where
  nanos : Nat

namespace Duration

def ofParts (secs nanos : Nat) : Duration := ⟨secs * 1000000000 + nanos⟩
def ofMillis (ms : Nat) : Duration := ⟨ms * 1000000⟩

def secs (d : Duration) : Nat := d.nanos / 1000000000
def subsecNanos (d : Duration) : Nat := d.nanos % 1000000000

def fraction (n width : Nat) : List Char :=
  let digits := Nat.toDigits 10 n
  let padded := List.replicate (width - digits.length) '0' ++ digits
  (padded.reverse.dropWhile (· == '0')).reverse

def inUnit (d : Duration) (width : Nat) (unit : String) : String :=
  let whole := toString (d.nanos / Nat.pow 10 width)
  match fraction (d.nanos % Nat.pow 10 width) width with
  | [] => whole ++ unit
  | digits => whole ++ "." ++ String.ofList digits ++ unit

def text (d : Duration) : String :=
  if 1000000000 ≤ d.nanos then d.inUnit 9 "s"
  else if 1000000 ≤ d.nanos then d.inUnit 6 "ms"
  else if 1000 ≤ d.nanos then d.inUnit 3 "µs"
  else toString d.nanos ++ "ns"

end Duration
end Sluice
