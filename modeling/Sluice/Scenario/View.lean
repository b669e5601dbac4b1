import Sluice.Machine.Step

/-!
# Views of named objects

What a scenario can see of an object: the entry in a snapshot and, for some
kinds, the debugging text.
-/

namespace Sluice.Scenario

inductive Entity
  | subject (id : Nat) (fallible : Bool)
  | manual (id : Nat) (fallible : Bool)
  | custom (id : Nat) (fallible : Bool)
  | sink (id : Nat) (fallible : Bool)
  | assign (id : Nat)
  | target (id : Nat)
  | handle (id : Nat)
  | resumer (subscriber : Nat)
  | report (id : Nat)
  | stream (id : Nat)
  | ticker (id : Nat)

inductive View
  | subject (subscribers : Nat)
  | handle (status : Status)
  | resumer (terminated : Bool)
  | sink (status : Status) (pending : Bool)
  | assign (status : Status) (holds : Bool) (mode : Assign.Mode)
  | custom (subscriptions : Nat)
  | manual (kept : Nat)
  | target (cells : Target) (held : Nat)
  | report (r : Audit.Report)
  | stream (left : Nat) (dropped : Bool)
  | ticker (finished : Bool)

def statusOf (m : Machine) (subscriber : Nat) : Status :=
  match m.world.subscribers[subscriber]? with
  | some s => s.status
  | none => .terminal

def view? (m : Machine) (links : Nat → Nat) : Entity → Option View
  | .subject i _ => m.world.subjects[i]?.map fun s => .subject s.registered.length
  | .manual i _ => m.world.manuals[i]?.map fun kept => .manual kept.length
  | .custom i _ => some (.custom (links i))
  | .sink i _ =>
    match m.world.subscribers[i]? with
    | some (.sink s) => some (.sink s.lifecycle.status s.pending)
    | _ => none
  | .assign i =>
    match m.world.subscribers[i]? with
    | some (.assign s _) => some (.assign s.lifecycle.status s.target.isSome s.mode)
    | _ => none
  | .target i => m.world.targets[i]?.map fun t => .target t (m.holders i)
  | .handle i => m.world.handles[i]?.map fun h => .handle (statusOf m h.subscriber)
  | .resumer i => some (.resumer (m.terminated i))
  | .report i => m.world.reports[i]?.map .report
  | .stream i => m.world.streams[i]?.map fun s => .stream s.items.length s.dropped
  | .ticker i =>
    m.world.tickers[i]?.map fun t => .ticker (m.world.schedule.state t.task == .ended)

def debugText? (m : Machine) (root : String) : Entity → Option String
  | .subject i _ => m.world.subjects[i]?.map Subject.debugText
  | .handle i =>
    m.world.handles[i]?.map fun h =>
      "ResumableHandle \x7b status: " ++ (statusOf m h.subscriber).debugText ++ " \x7d"
  | .resumer i =>
    some ("Resumer \x7b alive: " ++ (if m.alive i then "true" else "false") ++ " \x7d")
  | .sink i _ | .assign i =>
    match m.world.subscribers[i]? with
    | some (.sink s) => some s.debugText
    | some (.assign s _) => some (s.debugText root)
    | _ => none
  | _ => none

end Sluice.Scenario
