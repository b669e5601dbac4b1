import Sluice.Component

/-!
# Resume tickers

A ticker resumes a subscriber once per period until the subscriber is terminal
or gone. The first tick comes one period after the ticker first ran. A tick
that is more than five milliseconds late moves the next one to the first
multiple of the period, counted from its own due time, after now; any other
tick is followed by one a period after its due time.
-/

namespace Sluice

namespace Ticker

inductive Phase
  | unstarted
  | waiting (due : Nat)
  | ended
deriving DecidableEq

inductive In
  | run (now : Nat)
  | abort

inductive Out
  | setTimer (due : Nat)
  | inspect (subscriber : Nat)
  | resume (subscriber : Nat)
  | wake
  | fail

inductive Frame
  | timing
  | inspecting (now : Nat)
  | resuming (now : Nat)
  | waking

/-- How late a tick may be before the ticks after it are moved. -/
def tolerance : Nat := 5

/-- When the tick after one that was due at `due` and came at `now` is due. -/
def nextDue (due now period : Nat) : Nat :=
  if due + tolerance < now then now + period - (now - due) % period else due + period

end Ticker

open Ticker in
structure Ticker where
  subscriber : Nat
  period : Nat
  aborted : Bool := false
  phase : Phase := .unstarted

namespace Ticker

def finish (s : Ticker) : Ticker × Move Out Frame :=
  ({ s with phase := .ended }, .answer (.pause .ended))

def awaitTick (s : Ticker) (due now : Nat) : Ticker × Move Out Frame :=
  if due ≤ now then
    ({ s with phase := .waiting (nextDue due now s.period) },
      .call (.inspect s.subscriber) (.inspecting now))
  else ({ s with phase := .waiting due }, .call (.setTimer due) .timing)

def enter (s : Ticker) : In → Ticker × Move Out Frame
  | .abort => ({ s with aborted := true }, .call .wake .waking)
  | .run now =>
    if s.aborted then s.finish
    else
      match s.phase with
      | .unstarted =>
        if s.period = 0 then (s, .call .fail .timing) else s.awaitTick (now + s.period) now
      | .waiting due => s.awaitTick due now
      | .ended => s.finish

def proceed (s : Ticker) (r : Reply) : Frame → Ticker × Move Out Frame
  | .timing => (s, .answer (.pause .waiting))
  | .inspecting now =>
    if r.holds then s.finish else (s, .call (.resume s.subscriber) (.resuming now))
  | .resuming now =>
    if r.holds then
      match s.phase with
      | .waiting due => s.awaitTick due now
      | _ => s.finish
    else s.finish
  | .waking => (s, .answer .done)

end Ticker
end Sluice
