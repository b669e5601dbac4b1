import Sluice.Component
import Sluice.Driver.Pace
import Sluice.Driver.Wakeup

/-!
# Stream drivers

A driver polls a stream on behalf of one subscriber. It takes a unit of demand
before it polls and keeps it until the poll has an outcome; a driver without
demand is parked and leaves its stream alone. Requests and cancellations reach
it through a wakeup that remembers one of them while nobody waits.
-/

namespace Sluice

namespace Driver

inductive Phase
  | unstarted
  | seeking
  | parked
  | polling
  | ended
deriving DecidableEq

inductive In (ρ : Type)
  | subscribe (dest : ρ)
  | request (d : Demand)
  | cancel
  | run

inductive Out (ρ : Type)
  | handOver (dest : ρ)
  | spawn
  | wake
  | poll
  | deliver (dest : ρ) (v : Value)
  | conclude (dest : ρ) (c : Ending)

inductive Frame (ρ : Type)
  | opening (dest : ρ)
  | passing
  | polling
  | delivering
  | concluding

end Driver

open Driver in
structure Driver (ρ : Type) where
  pace : Pace
  subscriber : Option ρ := none
  demand : Demand := .zero
  cancelled : Bool := false
  wakeup : Wakeup := {}
  phase : Phase := .unstarted
  delivered : Nat := 0

namespace Driver

variable {ρ : Type}

def stop (s : Driver ρ) : Driver ρ :=
  { s with phase := .ended, subscriber := none, wakeup := s.wakeup.forget }

def finish (s : Driver ρ) : Driver ρ × Move (Out ρ) (Frame ρ) :=
  (s.stop, .answer (.pause .ended))

def select (s : Driver ρ) : Driver ρ × Move (Out ρ) (Frame ρ) :=
  match s.wakeup.await with
  | (true, used) =>
    if s.cancelled then finish { s with wakeup := used }
    else ({ s with wakeup := used.await.2, phase := .polling }, .call .poll .polling)
  | (false, waiting) => ({ s with wakeup := waiting, phase := .polling }, .call .poll .polling)

/-- Takes a unit of demand, or parks until a wakeup comes. A permit that is
still there brings nothing new, so the driver parks after using it up. -/
def seek (s : Driver ρ) : Driver ρ × Move (Out ρ) (Frame ρ) :=
  if s.cancelled then s.finish
  else
    match s.demand.takeOne? with
    | some rest => select { s with demand := rest }
    | none =>
      let wakeup :=
        match s.wakeup.await with
        | (true, used) => used.await.2
        | (false, waiting) => waiting
      ({ s with wakeup := wakeup, phase := .parked }, .answer (.pause .waiting))

def notify (s : Driver ρ) : Driver ρ × Move (Out ρ) (Frame ρ) :=
  match s.wakeup.notify with
  | (true, w) => ({ s with wakeup := w }, .call .wake .passing)
  | (false, w) => ({ s with wakeup := w }, .answer .done)

def onRequest (s : Driver ρ) (d : Demand) : Driver ρ × Move (Out ρ) (Frame ρ) :=
  if d.isZero || s.cancelled then (s, .answer .done) else notify { s with demand := s.demand + d }

def onCancel (s : Driver ρ) : Driver ρ × Move (Out ρ) (Frame ρ) :=
  if s.cancelled then (s, .answer .done) else notify { s with cancelled := true }

def onRun (s : Driver ρ) : Driver ρ × Move (Out ρ) (Frame ρ) :=
  match s.phase with
  | .unstarted | .ended => (s, .answer (.pause .ended))
  | .seeking => s.seek
  | .parked =>
    match s.wakeup.consume? with
    | some w => seek { s with wakeup := w }
    | none => (s, .answer (.pause .waiting))
  | .polling =>
    match s.wakeup.consume? with
    | some w => if s.cancelled then finish { s with wakeup := w } else select { s with wakeup := w }
    | none => (s, .call .poll .polling)

def enter (s : Driver ρ) : In ρ → Driver ρ × Move (Out ρ) (Frame ρ)
  | .subscribe dest => ({ s with subscriber := some dest }, .call (.handOver dest) (.opening dest))
  | .request d => s.onRequest d
  | .cancel => s.onCancel
  | .run => s.onRun

def onOpened (s : Driver ρ) : Driver ρ × Move (Out ρ) (Frame ρ) :=
  if s.cancelled then (s.stop, .answer .done)
  else ({ s with phase := .seeking }, .call .spawn .passing)

def onPolled (s : Driver ρ) (p : Poll) : Driver ρ × Move (Out ρ) (Frame ρ) :=
  match p with
  | .pending => (s, .answer (.pause .waiting))
  | .value v =>
    let s := { s with wakeup := s.wakeup.forget }
    match s.cancelled, s.subscriber with
    | false, some dest => (s, .call (.deliver dest v) .delivering)
    | _, _ => s.finish
  | .failure e =>
    let s := { s with wakeup := s.wakeup.forget }
    match s.cancelled, s.subscriber with
    | false, some dest => (s, .call (.conclude dest (.failure e)) .concluding)
    | _, _ => s.finish
  | .closed =>
    let s := { s with wakeup := s.wakeup.forget }
    match s.cancelled, s.subscriber with
    | false, some dest => (s, .call (.conclude dest .finished) .concluding)
    | _, _ => s.finish

def onDelivered (s : Driver ρ) (d : Demand) : Driver ρ × Move (Out ρ) (Frame ρ) :=
  let s := { s with demand := s.demand + d, delivered := s.delivered + 1 }
  if s.delivered % s.pace.burst = 0 then ({ s with phase := .seeking }, .answer (.pause .yielded))
  else s.seek

def proceed (s : Driver ρ) (r : Reply) : Frame ρ → Driver ρ × Move (Out ρ) (Frame ρ)
  | .opening _ => s.onOpened
  | .passing => (s, .answer .done)
  | .polling => s.onPolled r.polled
  | .delivering => s.onDelivered r.granted
  | .concluding => s.finish

end Driver
end Sluice
