import Sluice.Machine.State

/-!
# Sections of components in a machine

A component knows others by what it was given. Here its calls become calls of
the machine, and the end of one of its sections a state of the machine.
-/

namespace Sluice

namespace Machine

def sinkCall (i : Nat) : Sink.Out Link → Call
  | .request link d => .request link d
  | .cancel link => .cancel link
  | .predicate v => .ask (.predicate i v)
  | .handler c => .ask (.handler i c)

def assignCall (rule : WriteRule) : Assign.Out Link Nat → Call
  | .request link d => .request link d
  | .cancel link => .cancel link
  | .write t v => .write t rule v

def handOver (dest : Outlet) (tap : Tap) : Call :=
  .tell dest.subscriber (.subscription ⟨dest.audits, tap⟩)

def sequenceCall (i : Nat) : Sequence.Out Outlet → Call
  | .advance => .advance i
  | .handOver dest live => handOver dest (if live then .sequence i else .inert)
  | .deliver dest v => .tell dest.subscriber (.value v)
  | .conclude dest => .tell dest.subscriber (.completion .finished)

def subjectCall (i : Nat) : Subject.Out Outlet → Call
  | .handOver dest (some entry) => handOver dest (.subject i entry)
  | .handOver dest none => handOver dest .inert
  | .deliver dest v => .tell dest.subscriber (.value v)
  | .conclude dest c => .tell dest.subscriber (.completion c)

def driverCall (i : Nat) : Driver.Out Outlet → Call
  | .handOver dest => handOver dest (.driver i)
  | .spawn => .spawn i
  | .wake => .wakeDriver i
  | .poll => .poll i
  | .deliver dest v => .tell dest.subscriber (.value v)
  | .conclude dest c => .tell dest.subscriber (.completion c)

def tickerCall (i : Nat) : Ticker.Out → Call
  | .setTimer due => .setTimer i due
  | .inspect s => .inspect s
  | .resume s => .resumeAlive s 1
  | .wake => .wakeTicker i
  | .fail => .fail .zeroPeriod

def customQuestion (i : Nat) : Message Link → Option Question
  | .subscription link => some (.subscription i link)
  | .value v => some (.value i v)
  | .completion c => some (.completion i c)
  | .resume | .cancel => none

def sinkSection (m : Machine) (i : Nat)
    (r : Sink Link × Move (Sink.Out Link) Sink.Frame) : Machine :=
  m.move (m.world.setSubscriber i (.sink r.1)) (sinkCall i) (.sink i) r.2

def assignSection (m : Machine) (i : Nat) (rule : WriteRule)
    (r : Assign Link Nat × Move (Assign.Out Link Nat) (Assign.Frame Nat)) : Machine :=
  m.move (m.world.setSubscriber i (.assign r.1 rule)) (assignCall rule) (.assign i) r.2

def sequenceSection (m : Machine) (i : Nat)
    (r : Sequence Outlet × Move (Sequence.Out Outlet) (Sequence.Frame Outlet)) : Machine :=
  m.move (m.world.setSequence i r.1) (sequenceCall i) (.sequence i) r.2

def subjectSection (m : Machine) (i : Nat)
    (r : Subject Outlet × Move (Subject.Out Outlet) (Subject.Frame Outlet)) : Machine :=
  m.move (m.world.setSubject i r.1) (subjectCall i) (.subject i) r.2

def driverSection (m : Machine) (i : Nat)
    (r : Driver Outlet × Move (Driver.Out Outlet) (Driver.Frame Outlet)) : Machine :=
  m.move (m.world.setDriver i r.1) (driverCall i) (.driver i) r.2

def tickerSection (m : Machine) (i : Nat) (r : Ticker × Move Ticker.Out Ticker.Frame) : Machine :=
  m.move (m.world.setTicker i r.1) (tickerCall i) (.ticker i) r.2

def isDeciding (i : Nat) : Frame → Bool
  | .sink j .deciding => i == j
  | _ => false

def tell (m : Machine) (i : Nat) (msg : Message Link) : Machine :=
  match m.world.subscribers[i]? with
  | some (.sink s) =>
    match s.enter msg with
    | (s, .call (.predicate v) f) =>
      if m.stack.any (isDeciding i) then { m with control := .stuck }
      else m.sinkSection i (s, .call (.predicate v) f)
    | r => m.sinkSection i r
  | some (.assign s rule) => m.assignSection i rule (s.enter msg)
  | some .custom =>
    match customQuestion i msg with
    | some q => m.call (.custom i) (.ask q)
    | none => m.answer .done
  | none => m.answer .done

def enterSequence (m : Machine) (i : Nat) (input : Sequence.In Outlet) : Machine :=
  match m.world.sequences[i]? with
  | some s => m.sequenceSection i (s.enter input)
  | none => m.answer .done

def enterSubject (m : Machine) (i : Nat) (input : Subject.In Outlet) : Machine :=
  match m.world.subjects[i]? with
  | some s => m.subjectSection i (s.enter input)
  | none => m.answer .done

def enterDriver (m : Machine) (i : Nat) (input : Driver.In Outlet) : Machine :=
  match m.world.drivers[i]? with
  | some t => m.driverSection i (t.driver.enter input)
  | none => m.answer .done

def enterTicker (m : Machine) (i : Nat) (input : Ticker.In) : Machine :=
  match m.world.tickers[i]? with
  | some t => m.tickerSection i (t.ticker.enter input)
  | none => m.answer .done

end Machine
end Sluice
