import Sluice.Demand
import Sluice.Completion

/-!
# Components

Everything that takes part in a run is a component: it is entered with an
input, works through one section of its code, and either answers its caller or
makes a call of its own. In the second case it leaves a frame, and the reply to
that call starts the section after it. Between two sections anything may
happen, calls into the same component included, so every law about re-entrant
use is a law about sequences of sections.
-/

namespace Sluice

inductive Poll
  | pending
  | value (v : Value)
  | failure (e : String)
  | closed
deriving DecidableEq

def Poll.isPending : Poll → Bool
  | pending => true
  | _ => false

inductive Pause
  | waiting
  | yielded
  | ended
deriving DecidableEq

/-- What a call returns. Each caller reads the one kind that it waits for. -/
inductive Reply
  | done
  | demand (d : Demand)
  | pull (more : Bool)
  | item (v : Option Value)
  | poll (p : Poll)
  | pause (p : Pause)
  | count (n : Nat)
  | flag (b : Bool)
  | handle (id : Nat)

namespace Reply

def granted : Reply → Demand
  | demand d => d
  | _ => .zero

def pulls : Reply → Bool
  | pull more => more
  | _ => false

def item? : Reply → Option Value
  | item v => v
  | _ => none

def polled : Reply → Poll
  | poll p => p
  | _ => .pending

def paused : Reply → Pause
  | pause p => p
  | _ => .waiting

def holds : Reply → Bool
  | flag b => b
  | _ => false

end Reply

inductive Move (Out Frame : Type)
  | answer (r : Reply)
  | call (out : Out) (frame : Frame)

inductive Message (σ : Type)
  | subscription (link : σ)
  | value (v : Value)
  | completion (c : Ending)
  | resume
  | cancel

end Sluice
