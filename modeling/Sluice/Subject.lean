import Sluice.Component

/-!
# Subjects

A subject hands each value it is sent to every registered subscription that has
unspent demand, in the order of subscription; a subscription without demand
misses the value for good. A broadcast works through the list that was
registered when it began. Completion empties the list first and then ends the
subscriptions one by one; whoever subscribes later is completed at once.
-/

namespace Sluice

namespace Subject

/-- A subscription of a subject. It holds its subscriber until it is cancelled or completed. -/
structure Entry (ρ : Type) where
  subscriber : Option ρ
  demand : Demand

inductive In (ρ : Type)
  | subscribe (dest : ρ)
  | request (entry : Nat) (d : Demand)
  | cancel (entry : Nat)
  | send (v : Value)
  | complete (c : Ending)

inductive Out (ρ : Type)
  | handOver (dest : ρ) (entry : Option Nat)
  | deliver (dest : ρ) (v : Value)
  | conclude (dest : ρ) (c : Ending)

inductive Frame (ρ : Type)
  | passing (dest : ρ)
  | refusing (dest : ρ) (c : Ending)
  | sending (dest : ρ) (entry : Nat) (v : Value) (rest : List Nat) (sent : Nat)
  | completing (dest : ρ) (c : Ending) (rest : List Nat)

end Subject

structure Subject (ρ : Type) where
  entries : Array (Subject.Entry ρ) := #[]
  registered : List Nat := []
  completion : Option Ending := none

namespace Subject

variable {ρ : Type}

instance : Inhabited (Subject ρ) := ⟨{}⟩

def setEntry (s : Subject ρ) (i : Nat) (e : Entry ρ) : Subject ρ :=
  { s with entries := s.entries.setIfInBounds i e }

def onSubscribe (s : Subject ρ) (dest : ρ) : Subject ρ × Move (Out ρ) (Frame ρ) :=
  match s.completion with
  | some c => (s, .call (.handOver dest none) (.refusing dest c))
  | none =>
    let i := s.entries.size
    ({ s with entries := s.entries.push ⟨some dest, .zero⟩, registered := s.registered ++ [i] },
      .call (.handOver dest (some i)) (.passing dest))

def onRequest (s : Subject ρ) (i : Nat) (d : Demand) : Subject ρ :=
  match s.entries[i]? with
  | some e => if e.subscriber.isSome then s.setEntry i { e with demand := e.demand + d } else s
  | none => s

def onCancel (s : Subject ρ) (i : Nat) : Subject ρ :=
  match s.entries[i]? with
  | some e =>
    if e.subscriber.isSome then
      { s.setEntry i { e with subscriber := none } with registered := s.registered.erase i }
    else s
  | none => s

/-- Takes one unit of an entry's demand if it still has a subscriber to use it for. -/
def spend? (s : Subject ρ) (i : Nat) : Option (ρ × Subject ρ) :=
  match s.entries[i]? with
  | some ⟨some dest, demand⟩ =>
    demand.takeOne?.map fun rest => (dest, s.setEntry i ⟨some dest, rest⟩)
  | _ => none

def broadcast (s : Subject ρ) (v : Value) (sent : Nat) :
    List Nat → Subject ρ × Move (Out ρ) (Frame ρ)
  | [] => (s, .answer (.count sent))
  | i :: rest =>
    match s.spend? i with
    | some (dest, s) => (s, .call (.deliver dest v) (.sending dest i v rest sent))
    | none => broadcast s v sent rest

def detach? (s : Subject ρ) (i : Nat) : Option (ρ × Subject ρ) :=
  match s.entries[i]? with
  | some ⟨some dest, demand⟩ => some (dest, s.setEntry i ⟨none, demand⟩)
  | _ => none

def concludeAll (s : Subject ρ) (c : Ending) : List Nat → Subject ρ × Move (Out ρ) (Frame ρ)
  | [] => (s, .answer .done)
  | i :: rest =>
    match s.detach? i with
    | some (dest, s) => (s, .call (.conclude dest c) (.completing dest c rest))
    | none => concludeAll s c rest

def enter (s : Subject ρ) : In ρ → Subject ρ × Move (Out ρ) (Frame ρ)
  | .subscribe dest => s.onSubscribe dest
  | .request i d => (s.onRequest i d, .answer .done)
  | .cancel i => (s.onCancel i, .answer .done)
  | .send v =>
    if s.completion.isSome then (s, .answer (.count 0)) else s.broadcast v 0 s.registered
  | .complete c =>
    if s.completion.isSome then (s, .answer .done)
    else concludeAll { s with completion := some c, registered := [] } c s.registered

def grant (s : Subject ρ) (i : Nat) (d : Demand) : Subject ρ :=
  match s.entries[i]? with
  | some e => s.setEntry i { e with demand := e.demand + d }
  | none => s

def proceed (s : Subject ρ) (r : Reply) : Frame ρ → Subject ρ × Move (Out ρ) (Frame ρ)
  | .passing _ => (s, .answer .done)
  | .refusing dest c => (s, .call (.conclude dest c) (.passing dest))
  | .sending _ i v rest sent => (s.grant i r.granted).broadcast v (sent + 1) rest
  | .completing _ c rest => s.concludeAll c rest

def debugText (s : Subject ρ) : String :=
  "PassthroughSubject \x7b subscribers: " ++ toString s.registered.length ++ ", completed: " ++
    (if s.completion.isSome then "true" else "false") ++ " \x7d"

end Subject
end Sluice
