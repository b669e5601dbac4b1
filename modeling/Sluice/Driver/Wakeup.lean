/-!
# Wakeups

A wakeup is what a driver waits on. A notification goes to the waiter if there
is one and is kept as a single permit otherwise, so notifications that nobody
waits for come down to one.
-/

namespace Sluice.Driver

inductive Waiter
  | absent
  | registered
  | notified
deriving DecidableEq

structure Wakeup where
  permit : Bool := false
  waiter : Waiter := .absent

namespace Wakeup

/-- Notifies the waiter, or leaves a permit; the flag says whether a waiter is to be woken. -/
def notify (w : Wakeup) : Bool × Wakeup :=
  match w.waiter with
  | .registered => (true, { w with waiter := .notified })
  | _ => (false, { w with permit := true })

def await (w : Wakeup) : Bool × Wakeup :=
  if w.permit then (true, { w with permit := false }) else (false, { w with waiter := .registered })

def consume? (w : Wakeup) : Option Wakeup :=
  match w.waiter with
  | .notified => some { w with waiter := .absent }
  | _ => none

/-- Stops waiting. A notification that was not used becomes a permit again. -/
def forget (w : Wakeup) : Wakeup :=
  { permit := w.permit || w.waiter == .notified, waiter := .absent }

end Wakeup

end Sluice.Driver
