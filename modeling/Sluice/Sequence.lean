import Sluice.Component

/-!
# Sequences

A sequence publishes what an iterator yields, as demand allows. The iterator is
read one item ahead, which is how the sequence knows that the value just
delivered was the last one. While a delivery is under way requests only add
demand; the loop that is delivering picks them up.
-/

namespace Sluice

structure Sequence (ρ : Type) where
  subscriber : Option ρ := none
  demand : Demand := .zero
  emitting : Bool := false
  /-- What was read ahead and not yet delivered. -/
  ahead : Option Value := none

namespace Sequence

variable {ρ : Type}

instance : Inhabited (Sequence ρ) := ⟨{}⟩

inductive In (ρ : Type)
  | subscribe (dest : ρ)
  | request (d : Demand)
  | cancel

inductive Out (ρ : Type)
  | advance
  | handOver (dest : ρ) (live : Bool)
  | deliver (dest : ρ) (v : Value)
  | conclude (dest : ρ)

inductive Frame (ρ : Type)
  | opening (dest : ρ)
  | refusing (dest : ρ)
  | drawing (dest : ρ)
  | delivering (dest : ρ)
  | peeking
  | passing (dest : ρ)

def drain (s : Sequence ρ) : Sequence ρ × Move (Out ρ) (Frame ρ) :=
  match s.subscriber, s.demand.takeOne? with
  | some dest, some rest =>
    match s.ahead with
    | some v =>
      ({ s with demand := rest, ahead := none }, .call (.deliver dest v) (.delivering dest))
    | none => ({ s with demand := rest }, .call .advance (.drawing dest))
  | _, _ => ({ s with emitting := false }, .answer .done)

def onRequest (s : Sequence ρ) (d : Demand) : Sequence ρ × Move (Out ρ) (Frame ρ) :=
  if s.subscriber.isNone then (s, .answer .done)
  else
    let total := s.demand + d
    if s.emitting || total.isZero then ({ s with demand := total }, .answer .done)
    else drain { s with demand := total, emitting := true }

def enter (s : Sequence ρ) : In ρ → Sequence ρ × Move (Out ρ) (Frame ρ)
  | .subscribe dest => (s, .call .advance (.opening dest))
  | .request d => s.onRequest d
  | .cancel => ({ s with subscriber := none }, .answer .done)

def onOpened (s : Sequence ρ) (dest : ρ) : Option Value → Sequence ρ × Move (Out ρ) (Frame ρ)
  | some v =>
    ({ s with subscriber := some dest, ahead := some v },
      .call (.handOver dest true) (.passing dest))
  | none => (s, .call (.handOver dest false) (.refusing dest))

def onDelivered (s : Sequence ρ) (d : Demand) : Sequence ρ × Move (Out ρ) (Frame ρ) :=
  let s := { s with demand := s.demand + d }
  if s.subscriber.isSome && s.ahead.isNone then (s, .call .advance .peeking) else s.drain

def onPeeked (s : Sequence ρ) : Option Value → Sequence ρ × Move (Out ρ) (Frame ρ)
  | some v => drain { s with ahead := some v }
  | none =>
    match s.subscriber with
    | some dest =>
      ({ s with emitting := false, subscriber := none }, .call (.conclude dest) (.passing dest))
    | none => ({ s with emitting := false }, .answer .done)

def proceed (s : Sequence ρ) (r : Reply) : Frame ρ → Sequence ρ × Move (Out ρ) (Frame ρ)
  | .opening dest => s.onOpened dest r.item?
  | .refusing dest => (s, .call (.conclude dest) (.passing dest))
  | .drawing dest =>
    match r.item? with
    | some v => (s, .call (.deliver dest v) (.delivering dest))
    | none => ({ s with emitting := false }, .answer .done)
  | .delivering _ => s.onDelivered r.granted
  | .peeking => s.onPeeked r.item?
  | .passing _ => (s, .answer .done)

end Sequence

end Sluice
