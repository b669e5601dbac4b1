import Sluice.Component
import Sluice.Lifecycle

/-!
# Sinks

A sink hands every value to a predicate, whose verdict decides whether the next
value is pulled at once. One flag records that a pull is outstanding: it is
raised by the first request and by a resume, and every verdict overwrites it,
so a resume never asks for a second value.
-/

namespace Sluice

structure Sink (σ : Type) where
  lifecycle : Lifecycle σ := .awaiting
  pending : Bool := false
  /-- The completion handler has not been used or dropped. -/
  handler : Bool := true

namespace Sink

variable {σ : Type}

inductive Out (σ : Type)
  | request (link : σ) (d : Demand)
  | cancel (link : σ)
  | predicate (v : Value)
  | handler (c : Ending)

inductive Frame
  | passing
  | deciding
  | releasing
deriving DecidableEq

instance : Inhabited (Sink σ) := ⟨{}⟩

def onSubscription (s : Sink σ) (link : σ) : Sink σ × Move (Out σ) Frame :=
  match s.lifecycle.accept? link with
  | some held =>
    ({ s with lifecycle := held, pending := true }, .call (.request link .one) .passing)
  | none => (s, .call (.cancel link) .passing)

def onValue (s : Sink σ) (v : Value) : Sink σ × Move (Out σ) Frame :=
  match s.lifecycle.link? with
  | some _ => (s, .call (.predicate v) .deciding)
  | none => (s, .answer (.demand .zero))

def onCompletion (s : Sink σ) (c : Ending) : Sink σ × Move (Out σ) Frame :=
  let (first, state) := s.lifecycle.terminate
  if first && s.handler then
    ({ s with lifecycle := state, handler := false }, .call (.handler c) .passing)
  else ({ s with lifecycle := state }, .answer .done)

def onResume (s : Sink σ) : Sink σ × Move (Out σ) Frame :=
  match s.lifecycle.link? with
  | some link =>
    if s.pending then (s, .answer .done)
    else ({ s with pending := true }, .call (.request link .one) .passing)
  | none => (s, .answer .done)

def onCancel (s : Sink σ) : Sink σ × Move (Out σ) Frame :=
  match s.lifecycle.release with
  | (some link, state) => ({ s with lifecycle := state }, .call (.cancel link) .releasing)
  | (none, _) => (s, .answer .done)

def enter (s : Sink σ) : Message σ → Sink σ × Move (Out σ) Frame
  | .subscription link => s.onSubscription link
  | .value v => s.onValue v
  | .completion c => s.onCompletion c
  | .resume => s.onResume
  | .cancel => s.onCancel

def proceed (s : Sink σ) (r : Reply) : Frame → Sink σ × Move (Out σ) Frame
  | .passing => (s, .answer .done)
  | .deciding =>
    ({ s with pending := r.pulls }, .answer (.demand (if r.pulls then .one else .zero)))
  | .releasing => ({ s with handler := false }, .answer .done)

def debugText (s : Sink σ) : String :=
  "ResumableSink \x7b status: " ++ s.lifecycle.status.debugText ++ ", pending_pull: " ++
    (if s.pending then "true" else "false") ++ ", .. \x7d"

end Sink
end Sluice
