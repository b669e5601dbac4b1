import Sluice.Component

/-!
# Tasks and timers

Tasks run one at a time in the order in which they were woken or spawned. A
task woken while it runs is queued again when it stops; one that yields is
woken again only after the queue has run empty. Timers fire in the order of
their due times, those of one time in the order in which they were set.
-/

namespace Sluice

inductive Job
  | driver (id : Nat)
  | ticker (id : Nat)

inductive TaskState
  | idle
  | queued
  | running
  | rewoken
  | ended
deriving DecidableEq

structure Task where
  job : Job
  state : TaskState := .queued

structure Timer where
  due : Nat
  task : Nat

structure Schedule where
  tasks : Array Task := #[]
  ready : List Nat := []
  yielded : List Nat := []
  now : Nat := 0
  timers : List Timer := []

namespace Schedule

instance : Inhabited Schedule := ⟨{}⟩

def state (s : Schedule) (t : Nat) : TaskState := (s.tasks[t]?.map Task.state).getD .ended

def setState (s : Schedule) (t : Nat) (state : TaskState) : Schedule :=
  { s with tasks := s.tasks.modify t fun task => { task with state := state } }

def spawn (s : Schedule) (job : Job) : Schedule :=
  { s with tasks := s.tasks.push { job := job }, ready := s.ready ++ [s.tasks.size] }

def wake (s : Schedule) (t : Nat) : Schedule :=
  match s.state t with
  | .idle => { s.setState t .queued with ready := s.ready ++ [t] }
  | .running => s.setState t .rewoken
  | _ => s

def wakeAll (s : Schedule) (ts : List Nat) : Schedule := ts.foldl wake s

def start? (s : Schedule) : Option (Nat × Schedule) :=
  match s.ready with
  | [] => none
  | t :: rest => some (t, { s.setState t .running with ready := rest })

def stop (s : Schedule) (t : Nat) : Pause → Schedule
  | .ended => s.setState t .ended
  | .waiting => requeue s
  | .yielded => requeue { s with yielded := s.yielded ++ [t] }
where
  requeue (s : Schedule) : Schedule :=
    match s.state t with
    | .rewoken => { s.setState t .queued with ready := s.ready ++ [t] }
    | _ => s.setState t .idle

def wakeYielded (s : Schedule) : Schedule := wakeAll { s with yielded := [] } s.yielded

def insertTimer (timer : Timer) : List Timer → List Timer
  | [] => [timer]
  | first :: rest =>
    if first.due ≤ timer.due then first :: insertTimer timer rest else timer :: first :: rest

def setTimer (s : Schedule) (due t : Nat) : Schedule :=
  { s with timers := insertTimer ⟨due, t⟩ s.timers }

def moveTo (s : Schedule) (now : Nat) : Schedule :=
  wakeAll { s with now := now, timers := s.timers.dropWhile (·.due ≤ now) }
    ((s.timers.takeWhile (·.due ≤ now)).map Timer.task)

end Schedule
end Sluice
