import Sluice.Demand
import Sluice.Completion
import Sluice.Target
import Sluice.Assign

/-!
# Probes of single values

Questions put to one demand, one completion or one writable place, without a
run around them.
-/

namespace Sluice.Probe

inductive DemandStep
  | add (d : Demand)
  | addReversed (d : Demand)
  | addTo (d : Demand)
  | set (d : Demand)
  | takeOne
  | takeAll
  | compare (d : Demand)
  | relations (d : Demand)
  | larger (d : Demand)
  | smaller (d : Demand)
  | isZero
  | isUnlimited
  | count
  | debug

inductive DemandAnswer
  | nothing
  | demand (d : Demand)
  | flag (b : Bool)
  | flags (bs : List Bool)
  | number (n : Option Nat)
  | text (s : String)

def orderText : Ordering → String
  | .lt => "less"
  | .eq => "equal"
  | .gt => "greater"

def relations (a b : Demand) : List Bool :=
  [decide (a < b), decide (a ≤ b), a == b, a != b, decide (b ≤ a), decide (b < a)]

def takeLimit : Nat := 1000

def stepDemand (now : Demand) : DemandStep → DemandAnswer × Demand
  | .add d => (.demand (now + d), now)
  | .addReversed d => (.demand (d + now), now)
  | .addTo d => (.nothing, now + d)
  | .set d => (.nothing, d)
  | .takeOne =>
    match now.takeOne? with
    | some rest => (.flag true, rest)
    | none => (.flag false, now)
  | .takeAll =>
    let (taken, left) := now.takeUpTo takeLimit
    (.number (some taken), left)
  | .compare d => (.text (orderText (compare now d)), now)
  | .relations d => (.flags (relations now d), now)
  | .larger d => (.demand (now.larger d), now)
  | .smaller d => (.demand (now.smaller d), now)
  | .isZero => (.flag now.isZero, now)
  | .isUnlimited => (.flag now.isUnlimited, now)
  | .count => (.number (now.count?.map UInt64.toNat), now)
  | .debug => (.text now.debugText, now)

def demandSteps (start : Demand) : List DemandStep → List (DemandAnswer × Demand)
  | [] => []
  | step :: rest =>
    let (answer, now) := stepDemand start step
    (answer, now) :: demandSteps now rest

def extend (suffix e : String) : Nat × String := (e.length, e ++ suffix)

inductive Write
  | set (v : Value)
  | add (v : Value)
  | field (v : Value)

structure Places where
  cell : Value
  pair : Target

namespace Places

def write (p : Places) : Write → Places
  | .set v => { p with cell := v }
  | .add v => { p with cell := p.cell + v }
  | .field v => { p with pair := p.pair.store v .second }

def trace (p : Places) : List Write → List Places
  | [] => []
  | w :: rest => p.write w :: trace (p.write w) rest

end Places

def modesText : String :=
  "[" ++ (default : Assign.Mode).debugText ++ ", " ++ Assign.Mode.allTheTime.debugText ++ ", " ++
    Assign.Mode.thenStop.debugText ++ "]"

end Sluice.Probe
