import Sluice.Scenario.Step
import Sluice.Scenario.View

/-!
# The stage of a scenario

A stage is a machine with the names and scripts of its objects, the callbacks
that are being played, and the record so far. The scenes follow the open
questions of the machine, the innermost first.
-/

namespace Sluice.Scenario

inductive Refusal
  | missing
  | mismatch
  | fallible
  | infallible
deriving DecidableEq

def Refusal.text : Refusal → String
  | missing => "missing"
  | mismatch => "mismatch"
  | fallible => "failable"
  | infallible => "infallible"

inductive Answer
  | nothing
  | flag (b : Bool)
  | count (n : Nat)
  | demand (d : Demand)
  | text (s : String)
  | refused (why : Refusal)
  | noRuntime
  | view (v : View)
  | snapshot (views : List (String × View))
  | panicked (text : String)

/-- The text of a panic. How early a request came is left out: it is not the same in two runs. -/
def panicText : Panic → String
  | .violation v => if v.isTiming then "request arrived too early" else v.text
  | .raised call => "script panic " ++ toString call
  | .zeroPeriod => "period must be non-zero"

inductive Event
  | value (name : String) (v : Value)
  | done (name : String) (c : Ending)
  | write (name : String) (v : Value)
  | subscribed (name : String)
  | request (name : String) (d : Demand)
  | cancel (name : String)
  | next (name : String) (v : Option Value)
  | poll (name : String) (p : Poll)
  | dropped (name : String)
  | did (step : String) (a : Answer)

structure Result where
  answer : Answer
  events : Array Event

structure Part where
  name : String
  script : Script Step := {}
  calls : Nat := 0
  links : List Link := []

def Part.keep (p : Part) (link : Link) : Part := { p with links := p.links ++ [link] }

structure StreamPart where
  name : String
  steps : List (List Step)
  quiet : Bool := false

inductive Finish
  | nothing
  | demand
  | count
  | flag
  | yes
  | attached (name : String)

/-- A step under way. One without a word leaves no record. -/
structure Pending where
  word : Option String
  finish : Finish

inductive Beat
  | request (link : Link) (d : Demand)
  | step (s : Step)

inductive Close
  | reply (r : Reply)
  | raise (call : Nat)

structure Scene where
  beats : List Beat
  close : Close
  pending : Option Pending := none

structure Stage where
  machine : Machine := {}
  targetKind : String
  names : List (String × Entity) := []
  subscribers : Array Part := #[]
  recorders : Array Part := #[]
  setters : Array Part := #[]
  streams : Array StreamPart := #[]
  sequences : Array (Option String) := #[]
  scenes : List Scene := []
  steps : List Step
  pending : Option Finish := none
  events : Array Event := #[]
  results : Array Result := #[]
  reported : Nat := 0

namespace Stage

def find? (s : Stage) (name : String) : Option Entity := s.names.lookup name

def forget (s : Stage) (name : String) : Stage :=
  { s with names := s.names.filter (·.1 != name) }

def bind (s : Stage) (name : String) (e : Entity) : Stage :=
  { s.forget name with names := (name, e) :: (s.forget name).names }

def setWorld (s : Stage) (w : World) : Stage := { s with machine := { s.machine with world := w } }

def links (s : Stage) (i : Nat) : List Link := (s.subscribers[i]?.map Part.links).getD []

def view? (s : Stage) (e : Entity) : Option View :=
  Scenario.view? s.machine (fun i => (s.links i).length) e

def snapshot (s : Stage) : List (String × View) :=
  s.names.filterMap fun (name, e) => (s.view? e).map (name, ·)

def record (s : Stage) (e : Event) : Stage := { s with events := s.events.push e }

def nameOf (parts : Array Part) (i : Nat) : String := (parts[i]?.map Part.name).getD ""

/-- A pending poll is reported only after a poll of another kind. -/
def reportPoll (s : Stage) (i : Nat) (p : Poll) : Stage :=
  match s.streams[i]? with
  | some part =>
    if part.quiet && p.isPending then s
    else
      let s := { s with streams := s.streams.setIfInBounds i { part with quiet := p.isPending } }
      s.record (.poll part.name p)
  | none => s

def reportQuestion (s : Stage) : Question → Stage
  | .predicate i v | .value i v => s.record (.value (nameOf s.subscribers i) v)
  | .handler i c | .completion i c => s.record (.done (nameOf s.subscribers i) c)
  | .subscription i _ => s.record (.subscribed (nameOf s.subscribers i))
  | .setter i v => s.record (.write (nameOf s.setters i) v)
  | .request i d => s.record (.request (nameOf s.recorders i) d)
  | .cancel i => s.record (.cancel (nameOf s.recorders i))
  | .poll _ => s

def reportSignal (s : Stage) : Signal → Stage
  | .asked q => s.reportQuestion q
  | .advanced i v =>
    match s.sequences[i]? with
    | some (some name) => s.record (.next name v)
    | _ => s
  | .polled i p => s.reportPoll i p
  | .dropped i =>
    match s.streams[i]? with
    | some part => s.record (.dropped part.name)
    | none => s

def report (s : Stage) : Stage :=
  let size := s.machine.world.trace.size
  if s.reported < size then
    { (s.machine.world.trace.extract s.reported size).foldl reportSignal s with reported := size }
  else s

end Stage
end Sluice.Scenario
