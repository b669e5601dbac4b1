import Sluice.Demand
import Sluice.Duration

/-!
# Limits on requests

What an audit checks of every request: its size, the running total and the gap
to the request before it. An unset limit checks nothing.
-/

namespace Sluice.Audit

structure Limits where
  maxDemand : Option Demand
  budget : Option Demand
  minInterval : Option Duration
  raises : Bool

namespace Limits

def unchecked : Limits := ⟨none, none, none, true⟩

def singleAndSlow : Limits :=
  { unchecked with maxDemand := some .one, minInterval := some (.ofMillis 10) }

inductive Setting
  | unchecked
  | singleAndSlow
  | maxDemand (d : Demand)
  | budget (d : Demand)
  | minInterval (t : Duration)
  | raises (b : Bool)

def set (l : Limits) : Setting → Limits
  | .unchecked => unchecked
  | .singleAndSlow => singleAndSlow
  | .maxDemand d => { l with maxDemand := some d }
  | .budget d => { l with budget := some d }
  | .minInterval t => { l with minInterval := some t }
  | .raises b => { l with raises := b }

def build (settings : List Setting) : Limits := settings.foldl set unchecked

def optionText : Option String → String
  | none => "None"
  | some s => "Some(" ++ s ++ ")"

def debugText (l : Limits) : String :=
  "DemandLimits \x7b max_demand: " ++ optionText (l.maxDemand.map Demand.debugText) ++
    ", accumulated_demand: " ++ optionText (l.budget.map Demand.debugText) ++
    ", min_interval: " ++ optionText (l.minInterval.map Duration.text) ++
    ", panic_on_violation: " ++ (if l.raises then "true" else "false") ++ " \x7d"

end Limits
end Sluice.Audit
