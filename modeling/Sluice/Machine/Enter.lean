import Sluice.Machine.Section

/-!
# Entering calls

What a machine does when a call begins, down to the first call that follows
from it or to the reply.
-/

namespace Sluice

namespace Machine

def ask (m : Machine) (q : Question) : Machine :=
  { world := m.world.signal (.asked q), stack := .asked q :: m.stack, control := .idle (.asked q) }

def subscribe (m : Machine) (source : Source) (subscriber : Nat) : Machine :=
  let dest : Outlet := ⟨source.audits, subscriber⟩
  match source.origin with
  | .sequence i => m.enterSequence i (.subscribe dest)
  | .subject i => m.enterSubject i (.subscribe dest)
  | .manual i =>
    { m with
      world := { m.world with manuals := m.world.manuals.modify i fun kept => kept ++ [dest] }
      control := .answering .done }
  | .stream i pace =>
    let d := m.world.drivers.size
    let fresh : StreamTask := { driver := { pace := pace }, stream := i }
    enterDriver { m with world := { m.world with drivers := m.world.drivers.push fresh } } d
      (.subscribe dest)

def requestTap (m : Machine) (d : Demand) : Tap → Machine
  | .inert => m.answer .done
  | .sequence i => m.enterSequence i (.request d)
  | .subject i entry => m.enterSubject i (.request entry d)
  | .driver i => m.enterDriver i (.request d)
  | .custom i => m.tail (.ask (.request i d))

def request (m : Machine) (link : Link) (d : Demand) : Machine :=
  match m.world.audit d link.audits with
  | (w, some v) => { m with world := w, control := .unwinding (.violation v) }
  | (w, none) => requestTap { m with world := w } d link.tap

def cancelTap (m : Machine) : Tap → Machine
  | .inert => m.answer .done
  | .sequence i => m.enterSequence i .cancel
  | .subject i entry => m.enterSubject i (.cancel entry)
  | .driver i => m.enterDriver i .cancel
  | .custom i => m.tail (.ask (.cancel i))

def write (m : Machine) (target : Nat) (v : Value) : WriteRule → Machine
  | .cell c =>
    { m with world := m.world.modifyTarget target (·.store v c), control := .answering .done }
  | .setter id =>
    { m with
      world := m.world.modifyTarget target (·.store v .first)
      stack := .setting target :: m.stack
      control := .calling (.ask (.setter id v)) }

def isUsing (h : Nat) : Frame → Bool
  | .handle i _ => h == i
  | _ => false

def useHandle (m : Machine) (h : Nat) (use : HandleUse) : Machine :=
  match m.world.handles[h]?, use with
  | some handle, .resume (n + 1) => m.call (.handle h n) (.tell handle.subscriber .resume)
  | some handle, .cancel => m.call (.handle h 0) (.tell handle.subscriber .cancel)
  | _, _ => m.answer .done

/-- Closes a handle at once, or marks it to be closed by the last call that runs through it. -/
def dropHandle (m : Machine) (h : Nat) : Machine :=
  match m.world.handles[h]? with
  | some handle =>
    let w := m.world.setHandle h .dropped
    if m.stack.any (isUsing h) then { m with world := w, control := .answering .done }
    else call { m with world := w } (.closing h) (.tell handle.subscriber .cancel)
  | none => m.answer .done

def resumeAlive (m : Machine) (i : Nat) : Nat → Machine
  | 0 => m.answer (.flag (m.alive i))
  | n + 1 => if m.alive i then m.call (.resumer i n) (.tell i .resume) else m.answer (.flag false)

def advance (m : Machine) (i : Nat) : Machine :=
  match m.world.feeds[i]? with
  | some feed =>
    let (v, feed) := feed.next
    let w := { m.world with feeds := m.world.feeds.setIfInBounds i feed }
    { m with world := w.signal (.advanced i v), control := .answering (.item v) }
  | none => m.answer (.item none)

/-- Polls the stream of a driver. The environment acts before the outcome is handed out. -/
def poll (m : Machine) (d : Nat) : Machine :=
  match m.world.drivers[d]? with
  | some t =>
    match m.world.streams[t.stream]? with
    | some s =>
      let (p, s) := s.poll t.task
      let w := { m.world with streams := m.world.streams.setIfInBounds t.stream s }
      call { m with world := w.signal (.polled t.stream p) } (.polling p) (.ask (.poll t.stream))
    | none => m.answer (.poll .pending)
  | none => m.answer (.poll .pending)

def spawn (m : Machine) (d : Nat) : Machine :=
  let w := m.world
  let drivers := w.drivers.modify d fun t => { t with task := some w.schedule.tasks.size }
  { m with
    world := { w with drivers := drivers, schedule := w.schedule.spawn (.driver d) }
    control := .answering .done }

def wakeTask (m : Machine) : Option Nat → Machine
  | some t => { m with world := m.world.wake t, control := .answering .done }
  | none => m.answer .done

def push (m : Machine) (i : Nat) (items : List Item) (close : Bool) : Machine :=
  match m.world.streams[i]? with
  | some s =>
    let (waker, s) := s.push items close
    wakeTask { m with world := { m.world with streams := m.world.streams.setIfInBounds i s } } waker
  | none => m.answer .done

def setTimer (m : Machine) (ticker due : Nat) : Machine :=
  match m.world.tickers[ticker]? with
  | some t =>
    { m with
      world := { m.world with schedule := m.world.schedule.setTimer due t.task }
      control := .answering .done }
  | none => m.answer .done

def run (m : Machine) (t : Nat) : Machine :=
  match m.world.schedule.tasks[t]? with
  | some task =>
    let m := { m with stack := .task t :: m.stack }
    match task.job with
    | .driver i => m.enterDriver i .run
    | .ticker i => m.enterTicker i (.run m.world.schedule.now)
  | none => m.answer .done

def turn (m : Machine) : Machine :=
  let w := m.world
  match w.schedule.start? with
  | some (t, s) =>
    call { m with world := { w with schedule := s } } .turning (.run t)
  | none =>
    { m with
      world := { w with schedule := w.schedule.wakeYielded }
      control := .answering .done }

def settle (m : Machine) : Machine :=
  if m.world.schedule.ready.isEmpty then m.answer .done else m.call .settling .turn

def moveClock (m : Machine) (now : Nat) : Machine :=
  { m with world := { m.world with schedule := m.world.schedule.moveTo now } }

def advanceTo (m : Machine) (deadline : Nat) : Machine :=
  let s := m.world.schedule
  match s.timers with
  | timer :: _ =>
    if timer.due ≤ deadline then
      call (m.moveClock (max s.now timer.due)) (.advancing deadline) .settle
    else answer (m.moveClock deadline) .done
  | [] => answer (m.moveClock deadline) .done

def enter (m : Machine) : Call → Machine
  | .ask q => m.ask q
  | .tell i msg => m.tell i msg
  | .subscribe source i => m.subscribe source i
  | .attach source i => m.call (.attaching i) (.subscribe source i)
  | .request link d => m.request link d
  | .cancel link => m.cancelTap link.tap
  | .send i v => m.enterSubject i (.send v)
  | .complete i c => m.enterSubject i (.complete c)
  | .write t rule v => m.write t v rule
  | .useHandle h use => m.useHandle h use
  | .dropHandle h => m.dropHandle h
  | .resumeAlive i n => m.resumeAlive i n
  | .inspect i => m.answer (.flag (m.terminated i))
  | .advance i => m.advance i
  | .poll d => m.poll d
  | .spawn d => m.spawn d
  | .wakeDriver d => m.wakeTask (m.world.drivers[d]?.bind StreamTask.task)
  | .push i items close => m.push i items close
  | .setTimer i due => m.setTimer i due
  | .wakeTicker i => m.wakeTask (m.world.tickers[i]?.map TickerTask.task)
  | .abort i => m.enterTicker i .abort
  | .fail why => m.unwind why
  | .run t => m.run t
  | .turn => m.turn
  | .settle => m.settle
  | .advanceClock ms => m.call (.advancing (m.world.schedule.now + ms)) .settle
  | .jumpClock ms => m.call (.jumping ms) .settle

end Machine
end Sluice
