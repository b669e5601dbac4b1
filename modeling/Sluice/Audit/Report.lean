import Sluice.Audit.Violation

/-!
# Reports

A report keeps every request in order with the running total, and the
violations in the order size, budget, frequency for each request. The gap is
measured from the last request that was not itself too early.
-/

namespace Sluice.Audit

structure Report where
  limits : Limits
  requests : List Demand := []
  total : Demand := .zero
  lastAccepted : Option Duration := none
  violations : List Violation := []

namespace Report

def isClean (r : Report) : Bool := r.violations.isEmpty

def sizeViolations (l : Limits) (d : Demand) : List Violation :=
  match l.maxDemand with
  | some max => if max < d then [.maxDemandExceeded d max] else []
  | none => []

def budgetViolations (l : Limits) (total : Demand) : List Violation :=
  match l.budget with
  | some budget => if budget < total then [.budgetExceeded total budget] else []
  | none => []

/-- Violations of the gap between requests, and the time the next gap counts from. -/
def gapViolations (l : Limits) (last : Option Duration) (now : Duration) :
    List Violation × Option Duration :=
  match l.minInterval with
  | none => ([], last)
  | some gap =>
    match last with
    | some before =>
      let elapsed : Duration := ⟨now.nanos - before.nanos⟩
      if elapsed.nanos < gap.nanos then ([.tooFrequent elapsed gap], last) else ([], some now)
    | none => ([], some now)

def observe (r : Report) (now : Duration) (d : Demand) : Report × List Violation :=
  let total := r.total + d
  let gap := gapViolations r.limits r.lastAccepted now
  let found := sizeViolations r.limits d ++ budgetViolations r.limits total ++ gap.1
  ({ r with
      requests := r.requests ++ [d]
      total := total
      lastAccepted := gap.2
      violations := r.violations ++ found }, found)

/-- The violation that a request raises in place of being passed on. -/
def raised? (r : Report) (found : List Violation) : Option Violation :=
  if r.limits.raises then found.head? else none

end Report
end Sluice.Audit
