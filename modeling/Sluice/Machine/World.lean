import Sluice.Audit.Report
import Sluice.Sink
import Sluice.Assign
import Sluice.Target
import Sluice.Feed
import Sluice.Sequence
import Sluice.Subject
import Sluice.Driver
import Sluice.Ticker
import Sluice.Stream
import Sluice.Schedule

/-!
# The world of a run

Every component of a run has a place in one of the world's tables, and refers
to others by their places. A link is a subscription as its subscriber sees it
and an outlet a subscriber as its publisher sees it; both list the reports that
audit the requests between the two, the outermost first.
-/

namespace Sluice

/-- The publisher's end of a subscription. An inert one ignores all requests. -/
inductive Tap
  | inert
  | sequence (id : Nat)
  | subject (id entry : Nat)
  | driver (id : Nat)
  | custom (id : Nat)

structure Link where
  audits : List Nat
  tap : Tap

structure Outlet where
  audits : List Nat
  subscriber : Nat

inductive Origin
  | sequence (id : Nat)
  | subject (id : Nat)
  | manual (id : Nat)
  | stream (id : Nat) (pace : Driver.Pace)

structure Source where
  audits : List Nat
  origin : Origin

inductive Subscriber
  | sink (s : Sink Link)
  | assign (s : Assign Link Nat) (rule : WriteRule)
  | custom

namespace Subscriber

def status : Subscriber → Status
  | sink s => s.lifecycle.status
  | assign s _ => s.lifecycle.status
  | custom => .awaiting

def target? : Subscriber → Option Nat
  | assign s _ => s.target
  | _ => none

end Subscriber

/-- A handle owns its subscriber until it is closed. One that was dropped while
a call runs through it stays open until that call is over. -/
inductive HandleState
  | kept
  | dropped
  | closed
deriving DecidableEq

structure Handle where
  subscriber : Nat
  state : HandleState := .kept

structure StreamTask where
  driver : Driver Outlet
  stream : Nat
  task : Option Nat := none

structure TickerTask where
  ticker : Ticker
  task : Nat

inductive Question
  | predicate (sink : Nat) (v : Value)
  | handler (sink : Nat) (c : Ending)
  | setter (id : Nat) (v : Value)
  | subscription (custom : Nat) (link : Link)
  | value (custom : Nat) (v : Value)
  | completion (custom : Nat) (c : Ending)
  | request (custom : Nat) (d : Demand)
  | cancel (custom : Nat)
  | poll (stream : Nat)

/-- What happened in a run, as far as it can be seen from outside. -/
inductive Signal
  | asked (q : Question)
  | advanced (sequence : Nat) (v : Option Value)
  | polled (stream : Nat) (p : Poll)
  | dropped (stream : Nat)

structure World where
  subscribers : Array Subscriber := #[]
  sequences : Array (Sequence Outlet) := #[]
  feeds : Array Feed := #[]
  subjects : Array (Subject Outlet) := #[]
  manuals : Array (List Outlet) := #[]
  streams : Array Stream := #[]
  drivers : Array StreamTask := #[]
  tickers : Array TickerTask := #[]
  reports : Array Audit.Report := #[]
  targets : Array Target := #[]
  handles : Array Handle := #[]
  /-- Subscribers that the environment holds on to without a handle. -/
  owned : List Nat := []
  schedule : Schedule := {}
  auditClock : Duration := ⟨0⟩
  trace : Array Signal := #[]

namespace World

instance : Inhabited World := ⟨{}⟩

def signal (w : World) (s : Signal) : World := { w with trace := w.trace.push s }

def setSubscriber (w : World) (i : Nat) (s : Subscriber) : World :=
  { w with subscribers := w.subscribers.setIfInBounds i s }

def setSequence (w : World) (i : Nat) (s : Sequence Outlet) : World :=
  { w with sequences := w.sequences.setIfInBounds i s }

def setSubject (w : World) (i : Nat) (s : Subject Outlet) : World :=
  { w with subjects := w.subjects.setIfInBounds i s }

def setDriver (w : World) (i : Nat) (s : Driver Outlet) : World :=
  { w with drivers := w.drivers.modify i fun t => { t with driver := s } }

def setTicker (w : World) (i : Nat) (s : Ticker) : World :=
  { w with tickers := w.tickers.modify i fun t => { t with ticker := s } }

def setHandle (w : World) (i : Nat) (state : HandleState) : World :=
  { w with handles := w.handles.modify i fun h => { h with state := state } }

def modifyTarget (w : World) (i : Nat) (f : Target → Target) : World :=
  { w with targets := w.targets.modify i f }

def wake (w : World) (task : Nat) : World := { w with schedule := w.schedule.wake task }

def dropStream (w : World) (i : Nat) : World :=
  { w with streams := w.streams.modify i fun s => { s with dropped := true } }.signal (.dropped i)

def addSubscriber (w : World) (s : Subscriber) : World :=
  { w with subscribers := w.subscribers.push s }

def addSequence (w : World) (feed : Feed) : World :=
  { w with sequences := w.sequences.push {}, feeds := w.feeds.push feed }

def addSubject (w : World) : World := { w with subjects := w.subjects.push {} }

def addManual (w : World) : World := { w with manuals := w.manuals.push [] }

def addStream (w : World) (items : List Item) (closed : Bool) : World :=
  { w with streams := w.streams.push { items := items, closed := closed } }

def addReport (w : World) (limits : Audit.Limits) : World :=
  { w with reports := w.reports.push { limits := limits } }

def addTarget (w : World) (t : Target) : World := { w with targets := w.targets.push t }

def addTicker (w : World) (subscriber period : Nat) : World :=
  let ticker : Ticker := { subscriber := subscriber, period := period }
  { w with
    tickers := w.tickers.push ⟨ticker, w.schedule.tasks.size⟩
    schedule := w.schedule.spawn (.ticker w.tickers.size) }

def own (w : World) (subscriber : Nat) : World := { w with owned := subscriber :: w.owned }
def disown (w : World) (subscriber : Nat) : World := { w with owned := w.owned.erase subscriber }

def dropManual (w : World) (i : Nat) : World := { w with manuals := w.manuals.setIfInBounds i [] }

/-- Shows a request to the reports in turn, up to one that raises a violation. -/
def audit (w : World) (d : Demand) : List Nat → World × Option Audit.Violation
  | [] => (w, none)
  | i :: rest =>
    match w.reports[i]? with
    | none => audit w d rest
    | some r =>
      let (seen, found) := r.observe w.auditClock d
      let w := { w with reports := w.reports.setIfInBounds i seen }
      match seen.raised? found with
      | some v => (w, some v)
      | none => audit w d rest

end World
end Sluice
