import Sluice.Machine.Enter

/-!
# Leaving calls

A frame takes the reply to the call that it made, or is taken off the stack by
a panic. A panic that reaches a task ends the task and goes no further.
-/

namespace Sluice

namespace Machine

def proceedSink (m : Machine) (i : Nat) (f : Sink.Frame) (r : Reply) : Machine :=
  match m.world.subscribers[i]? with
  | some (.sink s) => m.sinkSection i (s.proceed r f)
  | _ => m.answer .done

def proceedAssign (m : Machine) (i : Nat) (f : Assign.Frame Nat) : Machine :=
  match m.world.subscribers[i]? with
  | some (.assign s rule) => m.assignSection i rule (s.proceed f)
  | _ => m.answer .done

def proceedSequence (m : Machine) (i : Nat) (f : Sequence.Frame Outlet) (r : Reply) : Machine :=
  match m.world.sequences[i]? with
  | some s => m.sequenceSection i (s.proceed r f)
  | none => m.answer .done

def proceedSubject (m : Machine) (i : Nat) (f : Subject.Frame Outlet) (r : Reply) : Machine :=
  match m.world.subjects[i]? with
  | some s => m.subjectSection i (s.proceed r f)
  | none => m.answer .done

/-- A driver that was cancelled before it could start drops its stream. -/
def proceedDriver (m : Machine) (i : Nat) (f : Driver.Frame Outlet) (r : Reply) : Machine :=
  match m.world.drivers[i]? with
  | some t =>
    let m := m.driverSection i (t.driver.proceed r f)
    match f, t.driver.cancelled with
    | .opening _, true => { m with world := m.world.dropStream t.stream }
    | _, _ => m
  | none => m.answer .done

def proceedTicker (m : Machine) (i : Nat) (f : Ticker.Frame) (r : Reply) : Machine :=
  match m.world.tickers[i]? with
  | some t => m.tickerSection i (t.ticker.proceed r f)
  | none => m.answer .done

def dropJob (w : World) : Job → World
  | .driver i =>
    match w.drivers[i]? with
    | some t => (w.setDriver i t.driver.stop).dropStream t.stream
    | none => w
  | .ticker i =>
    match w.tickers[i]? with
    | some t => w.setTicker i t.ticker.finish.1
    | none => w

def endTask (w : World) (t : Nat) : World :=
  let w := { w with schedule := w.schedule.stop t .ended }
  match w.schedule.tasks[t]? with
  | some task => dropJob w task.job
  | none => w

def stopTask (m : Machine) (t : Nat) (p : Pause) : Machine :=
  let w :=
    match p with
    | .ended => endTask m.world t
    | _ => { m.world with schedule := m.world.schedule.stop t p }
  { m with world := w, control := .answering .done }

/-- The subscriber to cancel when a call through a handle is over: the handle was dropped while
calls ran through it, and this was the last of them. -/
def lastUse (m : Machine) (h : Nat) : Option Nat :=
  match m.world.handles[h]? with
  | some handle =>
    if handle.state == .dropped && !m.stack.any (isUsing h) then some handle.subscriber else none
  | none => none

def proceed (m : Machine) (r : Reply) : Frame → Machine
  | .asked q => { m with stack := .asked q :: m.stack, control := .idle (.returned r) }
  | .sink i f => m.proceedSink i f r
  | .assign i f => m.proceedAssign i f
  | .custom _ => m.answer r
  | .sequence i f => m.proceedSequence i f r
  | .subject i f => m.proceedSubject i f r
  | .driver i f => m.proceedDriver i f r
  | .ticker i f => m.proceedTicker i f r
  | .setting t =>
    { m with world := m.world.modifyTarget t Target.countUp, control := .answering .done }
  | .polling p => m.answer (.poll p)
  | .attaching i =>
    { m with
      world := { m.world with handles := m.world.handles.push { subscriber := i } }
      control := .answering (.handle m.world.handles.size) }
  | .handle h (n + 1) => m.useHandle h (.resume (n + 1))
  | .handle h 0 =>
    match m.lastUse h with
    | some i => m.call (.closing h) (.tell i .cancel)
    | none => m.answer .done
  | .closing h => { m with world := m.world.setHandle h .closed, control := .answering .done }
  | .rethrow why => m.unwind why
  | .resumer _ 0 => m.answer (.flag true)
  | .resumer i (n + 1) => m.resumeAlive i (n + 1)
  | .task t => m.stopTask t r.paused
  | .turning => m.turn
  | .settling => m.settle
  | .advancing deadline => m.advanceTo deadline
  | .jumping ms => tail (m.moveClock (m.world.schedule.now + ms)) .settle

def unwound (m : Machine) (why : Panic) : Frame → Machine
  | .driver i (.opening _) =>
    match m.world.drivers[i]? with
    | some t =>
      let w := (m.world.setDriver i t.driver.stop).dropStream t.stream
      { m with world := w, control := .unwinding why }
    | none => m.unwind why
  | .task t => { m with world := endTask m.world t, control := .answering .done }
  | .handle h _ =>
    match m.lastUse h with
    | some i => call { m with stack := .rethrow why :: m.stack } (.closing h) (.tell i .cancel)
    | none => m.unwind why
  | .closing h => { m with world := m.world.setHandle h .closed, control := .unwinding why }
  | _ => m.unwind why

end Machine
end Sluice
