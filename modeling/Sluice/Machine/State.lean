import Sluice.Machine.World

/-!
# Machine states

A machine is a world with the stack of calls under way. It steps on its own
until it is the environment's turn: when a question is open on top of the
stack, or when the stack is empty. The environment then starts a call, or
answers the open question, or raises in place of an answer.
-/

namespace Sluice

/-- Why a call did not return: an audit raised a violation, the environment
raised from its call number `call`, or a ticker was given no period. -/
inductive Panic
  | violation (v : Audit.Violation)
  | raised (call : Nat)
  | zeroPeriod

inductive HandleUse
  | resume (times : Nat)
  | cancel

inductive Call
  | ask (q : Question)
  | tell (subscriber : Nat) (msg : Message Link)
  | subscribe (source : Source) (subscriber : Nat)
  | attach (source : Source) (subscriber : Nat)
  | request (link : Link) (d : Demand)
  | cancel (link : Link)
  | send (subject : Nat) (v : Value)
  | complete (subject : Nat) (c : Ending)
  | write (target : Nat) (rule : WriteRule) (v : Value)
  | useHandle (handle : Nat) (use : HandleUse)
  | dropHandle (handle : Nat)
  | resumeAlive (subscriber : Nat) (times : Nat)
  | inspect (subscriber : Nat)
  | advance (sequence : Nat)
  | poll (driver : Nat)
  | spawn (driver : Nat)
  | wakeDriver (driver : Nat)
  | push (stream : Nat) (items : List Item) (close : Bool)
  | setTimer (ticker due : Nat)
  | wakeTicker (ticker : Nat)
  | abort (ticker : Nat)
  | fail (why : Panic)
  | run (task : Nat)
  | turn
  | settle
  | advanceClock (ms : Nat)
  | jumpClock (ms : Nat)

inductive Frame
  | asked (q : Question)
  | sink (id : Nat) (frame : Sink.Frame)
  | assign (id : Nat) (frame : Assign.Frame Nat)
  | custom (id : Nat)
  | sequence (id : Nat) (frame : Sequence.Frame Outlet)
  | subject (id : Nat) (frame : Subject.Frame Outlet)
  | driver (id : Nat) (frame : Driver.Frame Outlet)
  | ticker (id : Nat) (frame : Ticker.Frame)
  | setting (target : Nat)
  | polling (p : Poll)
  | attaching (subscriber : Nat)
  | handle (id : Nat) (left : Nat)
  | closing (handle : Nat)
  | rethrow (why : Panic)
  | resumer (subscriber : Nat) (left : Nat)
  | task (id : Nat)
  | turning
  | settling
  | advancing (deadline : Nat)
  | jumping (ms : Nat)

inductive Outcome
  | start
  | asked (q : Question)
  | returned (r : Reply)
  | panicked (why : Panic)

inductive Control
  | calling (c : Call)
  | answering (r : Reply)
  | unwinding (why : Panic)
  | idle (last : Outcome)
  /-- A predicate was entered while it was running. -/
  | stuck

structure Machine where
  world : World := {}
  stack : List Frame := []
  control : Control := .idle .start

namespace Frame

def subscribers : Frame → List Nat
  | sink i _ | assign i _ | custom i | attaching i | resumer i _ => [i]
  | sequence _ (.opening dest) | sequence _ (.refusing dest) | sequence _ (.drawing dest)
  | sequence _ (.delivering dest) | sequence _ (.passing dest) => [dest.subscriber]
  | subject _ (.passing dest) | subject _ (.refusing dest _) | subject _ (.sending dest _ _ _ _)
  | subject _ (.completing dest _ _) => [dest.subscriber]
  | driver _ (.opening dest) => [dest.subscriber]
  | _ => []

def isAsked : Frame → Bool
  | asked _ => true
  | _ => false

end Frame

namespace World

def referred (w : World) (i : Nat) : Bool :=
  w.owned.contains i ||
  w.handles.any (fun h => h.subscriber == i && h.state != .closed) ||
  w.sequences.any (fun s => s.subscriber.any (·.subscriber == i)) ||
  w.subjects.any (fun s => s.entries.any fun e => e.subscriber.any (·.subscriber == i)) ||
  w.manuals.any (fun m => m.any (·.subscriber == i)) ||
  w.drivers.any (fun t => t.driver.subscriber.any (·.subscriber == i))

end World

namespace Machine

def alive (m : Machine) (i : Nat) : Bool :=
  m.world.referred i || m.stack.any (·.subscribers.contains i)

def terminated (m : Machine) (i : Nat) : Bool :=
  !m.alive i || (m.world.subscribers[i]?.all (·.status.isTerminal))

/-- How many references to a target its subscribers hold, writes under way included. -/
def holders (m : Machine) (target : Nat) : Nat :=
  (List.range m.world.subscribers.size).countP (fun i =>
    m.alive i && (m.world.subscribers[i]?.bind Subscriber.target?) == some target) +
  m.stack.countP fun
    | .assign _ (.writing t _) => t == target
    | _ => false

def answer (m : Machine) (r : Reply) : Machine := { m with control := .answering r }

def call (m : Machine) (frame : Frame) (c : Call) : Machine :=
  { m with stack := frame :: m.stack, control := .calling c }

def tail (m : Machine) (c : Call) : Machine := { m with control := .calling c }

def unwind (m : Machine) (why : Panic) : Machine := { m with control := .unwinding why }

def move {Out F : Type} (m : Machine) (w : World) (out : Out → Call) (frame : F → Frame) :
    Move Out F → Machine
  | .answer r => { m with world := w, control := .answering r }
  | .call o f => { world := w, stack := frame f :: m.stack, control := .calling (out o) }

end Machine
end Sluice
