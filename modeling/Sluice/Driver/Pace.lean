/-!
# Pace of a driver

A driver yields to the other tasks after a fixed number of deliveries, at least
one.
-/

namespace Sluice.Driver

structure Pace where
  yieldEvery : Nat

namespace Pace

def standard : Pace := ⟨64⟩
def lowLatency : Pace := ⟨16⟩
def highThroughput : Pace := ⟨256⟩

inductive Setting
  | standard
  | lowLatency
  | highThroughput
  | yieldEvery (n : Nat)
  | raw (n : Nat)

def set (p : Pace) : Setting → Pace
  | .standard => standard
  | .lowLatency => lowLatency
  | .highThroughput => highThroughput
  | .yieldEvery n => { p with yieldEvery := max n 1 }
  | .raw n => { p with yieldEvery := n }

def build (settings : List Setting) : Pace := settings.foldl set standard

/-- The pace in force: a pace of zero yields after every value. -/
def burst (p : Pace) : Nat := max p.yieldEvery 1

def debugText (p : Pace) : String :=
  "StreamConfig \x7b yield_every: " ++ toString p.yieldEvery ++ " \x7d"

def publisherText (name : String) (p : Pace) : String :=
  name ++ " \x7b config: " ++ p.debugText ++ ", .. \x7d"

end Pace

end Sluice.Driver
