/-!
# Values and completions

Values are 64-bit integers. A stream ends at most once, either finished or with
a failure.
-/

namespace Sluice

abbrev Value := Int64

inductive Completion (ε : Type)
  | finished
  | failure (error : ε)
deriving DecidableEq

namespace Completion

variable {ε δ : Type}

def isFinished : Completion ε → Bool
  | finished => true
  | failure _ => false

def mapFailure (f : ε → δ) : Completion ε → Completion δ
  | finished => finished
  | failure e => failure (f e)

end Completion

abbrev Ending := Completion String

end Sluice
