import Sluice.Audit.Limits

/-!
# Violations

The three ways in which a request can break its limits, with their texts.
-/

namespace Sluice.Audit

inductive Violation
  | maxDemandExceeded (requested max : Demand)
  | budgetExceeded (total budget : Demand)
  | tooFrequent (elapsed minInterval : Duration)

namespace Violation

def isSize : Violation → Bool
  | tooFrequent _ _ => false
  | _ => true

def isTiming : Violation → Bool
  | tooFrequent _ _ => true
  | _ => false

def text : Violation → String
  | maxDemandExceeded requested max =>
    "requested " ++ requested.text ++ " exceeds the maximum demand " ++ max.text
  | budgetExceeded total budget =>
    "accumulated demand " ++ total.text ++ " exceeds the budget " ++ budget.text
  | tooFrequent elapsed minInterval =>
    "request arrived " ++ elapsed.text ++ " after the previous one, minimum interval is " ++
      minInterval.text

def debugText : Violation → String
  | maxDemandExceeded requested max =>
    "MaxDemandExceeded \x7b requested: " ++ requested.debugText ++ ", max: " ++ max.debugText ++
      " \x7d"
  | budgetExceeded total budget =>
    "BudgetExceeded \x7b total: " ++ total.debugText ++ ", budget: " ++ budget.debugText ++ " \x7d"
  | tooFrequent elapsed minInterval =>
    "TooFrequent \x7b elapsed: " ++ elapsed.text ++ ", min_interval: " ++ minInterval.text ++
      " \x7d"

end Violation
end Sluice.Audit
