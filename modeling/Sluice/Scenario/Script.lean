import Sluice.Machine.State

/-!
# Scripts

A script says what a scenario's callbacks do. Its calls are counted from zero;
each runs the steps noted for it, then raises if it is listed to, and returns
the verdict noted for it otherwise. Scripts and sources are given over the type
of their steps, which are the steps of the scenario itself.
-/

namespace Sluice.Scenario

structure Script (α : Type) where
  during : List (Nat × List α) := []
  raises : List Nat := []
  onDone : List α := []
  onCancel : List α := []
  onSubscription : List α := []
  initial : List Demand := []
  pulls : List Bool := []
  laterPulls : Bool := false
  demands : List Demand := []
  laterDemand : Demand := .zero

namespace Script

variable {α : Type}

instance : Inhabited (Script α) := ⟨{}⟩

def stepsOf (s : Script α) (call : Nat) : List α :=
  match s.during.find? (·.1 == call) with
  | some (_, steps) => steps
  | none => []

def raisesAt (s : Script α) (call : Nat) : Bool := s.raises.contains call
def pullAt (s : Script α) (call : Nat) : Bool := s.pulls[call]?.getD s.laterPulls
def demandAt (s : Script α) (call : Nat) : Demand := s.demands[call]?.getD s.laterDemand

end Script

structure ScriptedItem (α : Type) where
  item : Item
  steps : List α := []
deriving Inhabited

structure StreamSpec (α : Type) where
  name : String
  items : List (ScriptedItem α)
  closed : Bool
  fallible : Bool
  pace : Driver.Pace
  hasRuntime : Bool

inductive SourceSpec (α : Type)
  | sequence (name : Option String) (feed : Feed)
  | subject (name : String)
  | manual (name : String)
  | audited (name : String) (limits : Audit.Limits) (inner : SourceSpec α)
  | stream (spec : StreamSpec α)
deriving Inhabited

inductive WriteSpec (α : Type)
  | cell (c : Cell)
  | setter (script : Script α)
deriving Inhabited

end Sluice.Scenario
