import Sluice.Component
import Sluice.Lifecycle

/-!
# Assigns

An assign writes every value into its target and lets the target go when it
becomes terminal. Its mode says whether it asks for the next value after every
write, or only when it is resumed; in the second mode the pull flag falls
before the write, so a resume made by the write itself counts.
-/

namespace Sluice

namespace Assign

inductive Mode
  | allTheTime
  | thenStop
deriving DecidableEq

def Mode.debugText : Mode → String
  | .allTheTime => "SingleDemandAllTheTime"
  | .thenStop => "SingleDemandThenStop"

instance : Inhabited Mode := ⟨.allTheTime⟩

inductive Out (σ τ : Type)
  | request (link : σ) (d : Demand)
  | cancel (link : σ)
  | write (target : τ) (v : Value)

inductive Frame (τ : Type)
  | passing
  | writing (target : τ) (granted : Demand)

end Assign

structure Assign (σ τ : Type) where
  mode : Assign.Mode
  target : Option τ
  lifecycle : Lifecycle σ := .awaiting
  pending : Bool := false

namespace Assign

variable {σ τ : Type}

def granted : Mode → Demand
  | .allTheTime => .one
  | .thenStop => .zero

def onSubscription (s : Assign σ τ) (link : σ) : Assign σ τ × Move (Out σ τ) (Frame τ) :=
  match s.lifecycle.accept? link with
  | some held =>
    ({ s with lifecycle := held, pending := true }, .call (.request link .one) .passing)
  | none => (s, .call (.cancel link) .passing)

def writable (s : Assign σ τ) : Option τ := s.lifecycle.link?.bind fun _ => s.target

def onValue (s : Assign σ τ) (v : Value) : Assign σ τ × Move (Out σ τ) (Frame τ) :=
  let after := { s with pending := s.pending && s.mode == .allTheTime }
  match s.writable with
  | some t => (after, .call (.write t v) (.writing t (granted s.mode)))
  | none => (after, .answer (.demand (granted s.mode)))

def onCompletion (s : Assign σ τ) : Assign σ τ × Move (Out σ τ) (Frame τ) :=
  ({ s with lifecycle := s.lifecycle.terminate.2, target := none }, .answer .done)

def onResume (s : Assign σ τ) : Assign σ τ × Move (Out σ τ) (Frame τ) :=
  match s.mode, s.lifecycle.link? with
  | .thenStop, some link =>
    if s.pending then (s, .answer .done)
    else ({ s with pending := true }, .call (.request link .one) .passing)
  | _, _ => (s, .answer .done)

def onCancel (s : Assign σ τ) : Assign σ τ × Move (Out σ τ) (Frame τ) :=
  match s.lifecycle.release with
  | (some link, state) =>
    ({ s with lifecycle := state, target := none }, .call (.cancel link) .passing)
  | (none, _) => (s, .answer .done)

def enter (s : Assign σ τ) : Message σ → Assign σ τ × Move (Out σ τ) (Frame τ)
  | .subscription link => s.onSubscription link
  | .value v => s.onValue v
  | .completion _ => s.onCompletion
  | .resume => s.onResume
  | .cancel => s.onCancel

def proceed (s : Assign σ τ) : Frame τ → Assign σ τ × Move (Out σ τ) (Frame τ)
  | .passing => (s, .answer .done)
  | .writing _ d => (s, .answer (.demand d))

def debugText (root : String) (s : Assign σ τ) : String :=
  "ResumableAssign \x7b root: \"" ++ root ++ "\", mode: " ++ s.mode.debugText ++
    ", status: " ++ s.lifecycle.status.debugText ++ ", holds_target: " ++
    (if s.target.isSome then "true" else "false") ++ " \x7d"

end Assign
end Sluice
