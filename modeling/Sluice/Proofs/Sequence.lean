import Sluice.Proofs.Demand
import Sluice.Proofs.Session
import Sluice.Sequence

/-!
# Sequences, their subscriber and their iterator

A sequence in a session has two partners: the subscriber, which may use the
subscription from anywhere once it has it, and the iterator, which answers one
read after the other and takes no other part. The account of a log says what the
two have asked for and got.
-/

namespace Sluice.Sequence

variable {ρ : Type}

def component : Component (Sequence ρ) (In ρ) (Out ρ) (Frame ρ) := ⟨enter, proceed⟩

abbrev Note (ρ : Type) := Entry (Sequence ρ) (In ρ) (Out ρ) (Frame ρ)
abbrev Play (ρ : Type) := Session (Sequence ρ) (In ρ) (Out ρ) (Frame ρ)

namespace Frame

def isReading : Frame ρ → Bool
  | opening _ | drawing _ | peeking => true
  | _ => false

def isDelivering : Frame ρ → Bool
  | delivering _ => true
  | _ => false

/-- The sequence is handing over its subscription, or its completion. -/
def isPassing : Frame ρ → Bool
  | passing _ => true
  | _ => false

end Frame

/-- What a log has come to. Demand counts as granted when it is requested before the completion and
when a delivery returns it; deliveries that return after a cancellation are not among the kept. -/
structure Account where
  reads : Nat := 0
  delivered : List Value := []
  kept : Nat := 0
  granted : ℕ∞ := 0
  cancelled : Bool := false
  concluded : Nat := 0
  panicked : Bool := false

namespace Account

def turn (a : Account) : Turn (In ρ) → Account
  | .enter (.request d) =>
    { a with granted := if a.concluded = 0 then d.amount + a.granted else a.granted }
  | .enter .cancel => { a with cancelled := true }
  | .reply (.item _) => { a with reads := a.reads + 1 }
  | .reply (.demand d) =>
    { a with granted := d.amount + a.granted, kept := if a.cancelled then a.kept else a.kept + 1 }
  | .raise => { a with panicked := true }
  | _ => a

def call (a : Account) : Option (Out ρ) → Account
  | some (.deliver _ v) => { a with delivered := a.delivered ++ [v] }
  | some (.conclude _) => { a with concluded := a.concluded + 1 }
  | _ => a

end Account

def account : List (Note ρ) → Account
  | [] => {}
  | e :: log => ((account log).turn e.turn).call e.call?

def HandedOver (log : List (Note ρ)) : Prop :=
  ∃ e ∈ log, ∃ dest, e.call? = some (.handOver dest true)

/-- The environment subscribes once, uses the subscription after it was handed over and never from
inside the iterator, and answers the reads by what the iterator yields in turn. -/
def Proper (f : Nat → Option Value) (s : Play ρ) : Turn (In ρ) → Prop
  | .enter (.subscribe _) => s.log = []
  | .enter _ => HandedOver s.log ∧ ∀ fr ∈ s.frames.head?, fr.isReading = false
  | .reply r =>
    match s.frames.head? with
    | some (.opening _) | some (.drawing _) | some .peeking =>
      r = .item (f (account s.log).reads)
    | some (.delivering _) => ∃ d, r = .demand d
    | _ => r = .done
  | .raise => ∀ fr ∈ s.frames.head?, fr.isReading = false

inductive Drained (s t : Sequence ρ) : Move (Out ρ) (Frame ρ) → Prop
  | stop (hs : s.subscriber = none ∨ s.demand.isZero = true)
      (ht : t = { s with emitting := false }) :
      Drained s t (.answer .done)
  | deliver {dest : ρ} {rest : Demand} {v : Value} (hs : s.subscriber = some dest)
      (hd : s.demand.takeOne? = some rest) (ha : s.ahead = some v)
      (ht : t = { s with demand := rest, ahead := none }) :
      Drained s t (.call (.deliver dest v) (.delivering dest))
  | draw {dest : ρ} {rest : Demand} (hs : s.subscriber = some dest)
      (hd : s.demand.takeOne? = some rest) (ha : s.ahead = none)
      (ht : t = { s with demand := rest }) : Drained s t (.call .advance (.drawing dest))

theorem drained (s : Sequence ρ) : Drained s s.drain.1 s.drain.2 := by
  obtain ⟨x, d, e, a⟩ := s
  cases x with
  | none => exact .stop (.inl rfl) rfl
  | some dest =>
    cases hd : d.takeOne? with
    | none =>
      rw [drain, hd]
      exact .stop (.inr (Demand.takeOne?_eq_none.mp hd)) rfl
    | some rest =>
      rw [drain, hd]
      cases a with
      | none => exact .draw rfl hd rfl rfl
      | some v => exact .deliver rfl hd rfl rfl

end Sluice.Sequence
