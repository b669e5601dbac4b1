/-!
# Lifecycle of a subscriber

A subscriber waits for its one subscription, holds it, and lets it go. The
state only moves forward: a completion may end it from any state, a
cancellation only while a subscription is held.
-/

namespace Sluice

inductive Status
  | awaiting
  | subscribed
  | terminal
deriving DecidableEq

namespace Status

def isTerminal : Status → Bool
  | terminal => true
  | _ => false

def text : Status → String
  | awaiting => "awaiting subscription"
  | subscribed => "subscribed"
  | terminal => "terminal"

def debugText : Status → String
  | awaiting => "AwaitingSubscription"
  | subscribed => "Subscribed"
  | terminal => "Terminal"

end Status

inductive Lifecycle (σ : Type)
  | awaiting
  | subscribed (link : σ)
  | terminal

namespace Lifecycle

variable {σ : Type}

instance : Inhabited (Lifecycle σ) := ⟨awaiting⟩

def status : Lifecycle σ → Status
  | awaiting => .awaiting
  | subscribed _ => .subscribed
  | terminal => .terminal

def link? : Lifecycle σ → Option σ
  | subscribed link => some link
  | _ => none

def accept? (link : σ) : Lifecycle σ → Option (Lifecycle σ)
  | awaiting => some (subscribed link)
  | _ => none

def release : Lifecycle σ → Option σ × Lifecycle σ
  | subscribed link => (some link, terminal)
  | state => (none, state)

/-- The state after a completion, and whether it was the first to end it. -/
def terminate : Lifecycle σ → Bool × Lifecycle σ
  | terminal => (false, terminal)
  | _ => (true, terminal)

end Lifecycle
end Sluice
