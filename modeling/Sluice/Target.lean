import Sluice.Completion

/-!
# Targets

A target has two cells. A value is written straight into one of them, or
through a setter, which stores it in the first cell, runs code of its owner and
then counts the second cell up.
-/

namespace Sluice

structure Target where
  first : Value
  second : Value

inductive Cell
  | first
  | second
deriving DecidableEq

inductive WriteRule
  | cell (c : Cell)
  | setter (id : Nat)

namespace Target

def store (t : Target) (v : Value) : Cell → Target
  | .first => { t with first := v }
  | .second => { t with second := v }

def countUp (t : Target) : Target := { t with second := t.second + 1 }

end Target
end Sluice
